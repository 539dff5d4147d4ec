import CifApi.Linguist.WhitespaceReuse

/-! The whitespace that the linguist program is given comes out again in its order. -/
namespace CifApi.Linguist

open Exec

def Event.delivery : Event → Option WsNode
  | .delivered node => some node
  | _ => none

def Event.printing : Event → Option WsNode
  | .printed node => some node
  | _ => none

/-- The pieces that `preserve_whitespace` has been given, first to last. -/
def deliveredNodes (c : Context) : List WsNode := (c.record.filterMap Event.delivery).reverse

/-- The pieces that have been printed, first to last. -/
def printedNodes (c : Context) : List WsNode := (c.record.filterMap Event.printing).reverse

def wsText (nodes : List WsNode) : UStr := nodes.flatMap (·.ws)

/-- What is kept of a piece of whitespace. -/
def Context.kept (c : Context) (ws : List UChar) : UStr :=
  cstr (translateWhitespace c.extraEol c.extraWs ws)

/-- The pieces that a callback brings: that of a whitespace callback, and a line feed that may be
added where a packet begins or a loop ends. -/
def Callback.Gives (kept : List UChar → UStr) : Callback → List UStr → Prop
  | .whitespace ws, pieces => pieces = [kept ws]
  | .packetStart, pieces | .loopEnd, pieces => pieces = [] ∨ pieces = [kept [UChar.nl]]
  | _, pieces => pieces = []

/-- The pieces that some callbacks bring, in their order. -/
def Given (kept : List UChar → UStr) : List Callback → List UStr → Prop
  | [], pieces => pieces = []
  | call :: calls, pieces => ∃ first rest, pieces = first ++ rest ∧ call.Gives kept first
    ∧ Given kept calls rest

/-- What there is in the output besides headings, names and values, and what separates them. -/
def whitespaceOut (c : Context) : UStr := (c.out.filter (·.origin = .whitespace)).map (·.unit)

/-- A line, with its terminator if it has one. -/
def OneLine (line : UStr) : Prop :=
  ∃ body eol, line = body ++ eol ∧ (∀ u ∈ body, isEol u = false)
    ∧ (eol = [] ∨ eol = [UChar.nl] ∨ eol = [UChar.cr] ∨ eol = [UChar.cr, UChar.nl])

def VersionLine (line : UStr) : Prop := headerStart <+: line ∧ OneLine line

/-- What is on its way out is what was given, after what was dropped in front; only the first piece
may have been cut. -/
structure Flow (dropped : UStr) (given flow : List WsNode) : Prop where
  text_eq : wsText given = dropped ++ wsText flow
  ids_suffix : ids flow <:+ ids given
  member : ∀ node ∈ flow.tail, node ∈ given

/-- The state of the whitespace, with some pieces in hand. -/
structure Carried (dropped : UStr) (hand : List WsNode) (c : Context) : Prop where
  flow : Flow dropped (deliveredNodes c) (printedNodes c ++ (hand ++ c.wsQueue.flatten))
  out_eq : whitespaceOut c = wsText (printedNodes c)

section Text

@[simp] theorem wsText_nil : wsText [] = [] := rfl

@[simp] theorem wsText_cons (node : WsNode) (nodes : List WsNode) :
    wsText (node :: nodes) = node.ws ++ wsText nodes :=
  List.flatMap_cons

@[simp] theorem wsText_append (nodes more : List WsNode) :
    wsText (nodes ++ more) = wsText nodes ++ wsText more :=
  List.flatMap_append

variable {header ws rest left : UStr} {node : WsNode} {nodes after result : List WsNode}

theorem matchStart_inl (h : matchStart header ws = some (.inl rest)) : ws = header ++ rest := by
  induction header generalizing ws with
  | nil =>
    rw [matchStart] at h
    exact Sum.inl.inj (Option.some.inj h)
  | cons c header ih =>
    cases ws with
    | nil => simp [matchStart] at h
    | cons d ws =>
      rw [matchStart] at h
      split at h
      · rename_i heq
        rw [heq, ih h]
        rfl
      · simp at h

theorem matchStart_inr (h : matchStart header ws = some (.inr left)) : header = ws ++ left := by
  induction header generalizing ws with
  | nil => simp [matchStart] at h
  | cons c header ih =>
    cases ws with
    | nil =>
      rw [matchStart] at h
      · exact Sum.inr.inj (Option.some.inj h)
      · simp
    | cons d ws =>
      rw [matchStart] at h
      split at h
      · rename_i heq
        rw [heq, ih h]
        rfl
      · simp at h

theorem findStart_spec (h : findStart header nodes = some (node, rest, after)) : ∃ before matched,
    nodes = before ++ node :: after ∧ node.ws = matched ++ rest
      ∧ header = wsText before ++ matched := by
  induction nodes generalizing header with
  | nil => simp [findStart] at h
  | cons first nodes ih =>
    rw [findStart] at h
    split at h
    · simp at h
    · rename_i hmatch
      obtain ⟨rfl, rfl, rfl⟩ : first = node ∧ _ = rest ∧ nodes = after := by simpa using h
      exact ⟨[], header, rfl, matchStart_inl hmatch, rfl⟩
    · rename_i hmatch
      obtain ⟨before, matched, rfl, hws, hheader⟩ := ih h
      refine ⟨first :: before, matched, rfl, hws, ?_⟩
      rw [matchStart_inr hmatch, hheader, wsText_cons, List.append_assoc]

theorem afterEol_some (h : afterEol ws = some rest) : ∃ body eol, ws = body ++ eol ++ rest
    ∧ (∀ u ∈ body, isEol u = false)
    ∧ (eol = [UChar.nl] ∨ eol = [UChar.cr] ∨ eol = [UChar.cr, UChar.nl]) := by
  induction ws with
  | nil => simp [afterEol] at h
  | cons c ws ih =>
    rw [afterEol] at h
    split at h
    · rename_i hpair
      simp only [Bool.and_eq_true, decide_eq_true_eq] at hpair
      obtain ⟨rfl, hhead⟩ := hpair
      obtain ⟨ws', rfl⟩ := List.head?_eq_some_iff.mp hhead
      obtain rfl := Option.some.inj h
      exact ⟨[], [UChar.cr, UChar.nl], rfl, by simp, .inr (.inr rfl)⟩
    · split at h
      · rename_i heol
        obtain rfl := Option.some.inj h
        refine ⟨[], [c], rfl, by simp, ?_⟩
        rw [isEol, Bool.or_eq_true, decide_eq_true_eq, decide_eq_true_eq] at heol
        rcases heol with rfl | rfl
        · exact .inl rfl
        · exact .inr (.inl rfl)
      · rename_i heol
        obtain ⟨body, eol, rfl, hbody, hterm⟩ := ih h
        refine ⟨c :: body, eol, rfl, ?_, hterm⟩
        rw [List.forall_mem_cons]
        exact ⟨by simpa using heol, hbody⟩

theorem afterEol_none (h : afterEol ws = none) : ∀ u ∈ ws, isEol u = false := by
  induction ws with
  | nil => simp
  | cons c ws ih =>
    rw [afterEol] at h
    split at h
    · simp at h
    · split at h
      · simp at h
      · rename_i heol
        rw [List.forall_mem_cons]
        exact ⟨by simpa using heol, ih h⟩

/-- A line in front of what is left. -/
theorem OneLine.append {front : UStr} (hfront : ∀ u ∈ front, isEol u = false) {line : UStr}
    (h : OneLine line) :
    OneLine (front ++ line) := by
  obtain ⟨body, eol, rfl, hbody, hterm⟩ := h
  refine ⟨front ++ body, eol, (List.append_assoc ..).symm, fun u hu => ?_, hterm⟩
  rcases List.mem_append.mp hu with hu | hu
  · exact hfront u hu
  · exact hbody u hu

theorem skipLine_some (h : skipLine node rest nodes = some result) : ∃ line, OneLine line
    ∧ rest ++ wsText nodes = line ++ wsText result ∧ ∀ n ∈ result.tail, n ∈ nodes := by
  induction nodes generalizing node rest with
  | nil =>
    obtain ⟨ws, hws, rfl⟩ := Option.map_eq_some_iff.mp h
    obtain ⟨body, eol, rfl, hbody, hterm⟩ := afterEol_some hws
    exact ⟨body ++ eol, ⟨body, eol, rfl, hbody, .inr hterm⟩, by simp, by simp⟩
  | cons next nodes ih =>
    rw [skipLine] at h
    split at h
    · rename_i ws hws
      obtain rfl := Option.some.inj h
      obtain ⟨body, eol, rfl, hbody, hterm⟩ := afterEol_some hws
      exact ⟨body ++ eol, ⟨body, eol, rfl, hbody, .inr hterm⟩, by simp, by simp⟩
    · rename_i hnone
      obtain ⟨line, hline, htext, hmember⟩ := ih h
      refine ⟨rest ++ line, hline.append (afterEol_none hnone), ?_,
        fun n hn => List.mem_cons_of_mem _ (hmember n hn)⟩
      rw [wsText_cons, htext, List.append_assoc]

theorem skipLine_none (h : skipLine node rest nodes = none) :
    ∀ u ∈ rest ++ wsText nodes, isEol u = false := by
  induction nodes generalizing node rest with
  | nil =>
    rw [wsText_nil, List.append_nil]
    exact afterEol_none (Option.map_eq_none_iff.mp h)
  | cons next nodes ih =>
    rw [skipLine] at h
    split at h
    · simp at h
    · rename_i hnone
      intro u hu
      rcases List.mem_append.mp hu with hu | hu
      · exact afterEol_none hnone u hu
      · exact ih h u hu

/-- The version comment is dropped with the terminator of its line, and nothing else. -/
theorem dropVersionComment_some {run : List WsNode} (h : dropVersionComment run = some result) :
    run ≠ [] ∧ ∃ line, VersionLine line ∧ wsText run = line ++ wsText result
      ∧ ∀ n ∈ result.tail, n ∈ run.tail := by
  obtain ⟨⟨node, rest, nodes⟩, hfind, hresult⟩ := Option.map_eq_some_iff.mp h
  change (skipLine node rest nodes).getD [] = result at hresult
  obtain ⟨before, matched, rfl, hws, hheader⟩ := findStart_spec hfind
  have hstart : ∀ u ∈ headerStart, isEol u = false := by decide
  have htext : wsText (before ++ node :: nodes) = headerStart ++ (rest ++ wsText nodes) := by
    rw [wsText_append, wsText_cons, hws, hheader]
    simp
  have hafter : ∀ n ∈ nodes, n ∈ (before ++ node :: nodes).tail := by
    intro n hn
    cases before with
    | nil => exact hn
    | cons first before =>
      exact List.mem_append_right _ (List.mem_cons_of_mem _ hn)
  refine ⟨by simp, ?_⟩
  cases hskip : skipLine node rest nodes with
  | some kept =>
    rw [hskip] at hresult
    obtain rfl : kept = result := hresult
    obtain ⟨line, hline, hrest, hmember⟩ := skipLine_some hskip
    refine ⟨headerStart ++ line, ⟨List.prefix_append .., hline.append hstart⟩, ?_,
      fun n hn => hafter n (hmember n hn)⟩
    rw [htext, hrest, List.append_assoc]
  | none =>
    rw [hskip] at hresult
    obtain rfl : [] = result := hresult
    refine ⟨headerStart ++ (rest ++ wsText nodes), ⟨List.prefix_append .., ?_⟩,
      by simpa using htext, by simp⟩
    exact OneLine.append hstart ⟨rest ++ wsText nodes, [], by simp, skipLine_none hskip, .inl rfl⟩

end Text

section Carried

variable {dropped : UStr} {hand : List WsNode} {c t : Context} {e : Event}

/-- Nothing has happened to the whitespace. -/
structure Unmoved (c t : Context) : Prop where
  delivered_eq : deliveredNodes t = deliveredNodes c
  printed_eq : printedNodes t = printedNodes c
  queue_eq : t.wsQueue = c.wsQueue
  out_eq : whitespaceOut t = whitespaceOut c

theorem Unmoved.of_record {t : Context} (hrecord : t.record = c.record)
    (hqueue : t.wsQueue = c.wsQueue) (hout : t.out = c.out) : Unmoved c t :=
  ⟨by rw [deliveredNodes, hrecord, deliveredNodes], by rw [printedNodes, hrecord, printedNodes],
    hqueue, by rw [whitespaceOut, hout, whitespaceOut]⟩

theorem unmoved_note (hdelivery : e.delivery = none) (hprinting : e.printing = none) :
    Unmoved c (c.note e) := by
  refine ⟨?_, ?_, rfl, rfl⟩
  · rw [deliveredNodes, Context.note, List.filterMap_cons_none hdelivery, deliveredNodes]
  · rw [printedNodes, Context.note, List.filterMap_cons_none hprinting, printedNodes]

theorem Unmoved.trans {r : Context} (h : Unmoved c t) (h' : Unmoved t r) : Unmoved c r :=
  ⟨h'.delivered_eq.trans h.delivered_eq, h'.printed_eq.trans h.printed_eq,
    h'.queue_eq.trans h.queue_eq, h'.out_eq.trans h.out_eq⟩

theorem Carried.unmoved (h : Carried dropped hand c) (hunmoved : Unmoved c t) :
    Carried dropped hand t := by
  obtain ⟨hflow, hout⟩ := h
  obtain ⟨hdelivered, hprinted, hqueue, houtEq⟩ := hunmoved
  constructor
  · rwa [hdelivered, hprinted, hqueue]
  · rwa [houtEq, hprinted]

theorem whitespaceOut_write {site : Site} {origin : Origin} {str : UStr} {column : Nat} :
    whitespaceOut (c.write site origin str column)
      = whitespaceOut c ++ if origin = .whitespace then str else [] := by
  change ((c.out ++ str.map fun u => OutUnit.mk u origin).filter _).map _ = _
  rw [List.filter_append, List.map_append, whitespaceOut]
  congr 1
  split
  · rename_i horigin
    rw [List.filter_eq_self.mpr (by simp [horigin])]
    simp [Function.comp_def]
  · rename_i horigin
    rw [List.filter_eq_nil_iff.mpr (by simp [horigin])]
    rfl

theorem unmoved_write {site : Site} {origin : Origin} {str : UStr} {column : Nat}
    (horigin : origin ≠ .whitespace) :
    Unmoved c (c.write site origin str column) := by
  refine ⟨rfl, rfl, rfl, ?_⟩
  rw [whitespaceOut_write, if_neg horigin, List.append_nil]

/-- What is about to be printed is printed as it is. -/
theorem Carried.printPiece {node : WsNode} {site : Site} {column : Nat}
    (h : Carried dropped (node :: hand) c) :
    Carried dropped hand
      (((c.note (.printed node)).write site .whitespace node.ws column).note (.freed [node])) := by
  have hprinted : printedNodes
      (((c.note (.printed node)).write site .whitespace node.ws column).note (.freed [node]))
      = printedNodes c ++ [node] := by
    change (node :: c.record.filterMap Event.printing).reverse = _
    rw [List.reverse_cons, printedNodes]
  constructor
  · rw [hprinted, List.append_assoc]
    exact h.flow
  · change whitespaceOut ((c.note (.printed node)).write site .whitespace node.ws column) = _
    rw [whitespaceOut_write, if_pos rfl, hprinted, wsText_append, wsText_cons, wsText_nil,
      List.append_nil]
    exact congrArg (· ++ node.ws) h.out_eq

/-- Whatever is printed, the state of the parse is as it was, and nothing is delivered. -/
structure SamePlace (c t : Context) : Prop where
  atStart_eq : t.atStart = c.atStart
  inContainer_eq : t.inContainer = c.inContainer
  kept_eq : t.kept = c.kept
  delivered_eq : deliveredNodes t = deliveredNodes c

theorem SamePlace.refl (c : Context) : SamePlace c c := ⟨rfl, rfl, rfl, rfl⟩

theorem SamePlace.trans {r : Context} (h : SamePlace c t) (h' : SamePlace t r) : SamePlace c r :=
  ⟨h'.atStart_eq.trans h.atStart_eq, h'.inContainer_eq.trans h.inContainer_eq,
    h'.kept_eq.trans h.kept_eq, h'.delivered_eq.trans h.delivered_eq⟩

theorem carries_printPieces (nodes : List WsNode) (c : Context) : Post False (printPieces nodes) c
    (fun _ t => (∀ dropped hand, Carried dropped (nodes ++ hand) c → Carried dropped hand t)
      ∧ SamePlace c t
      ∧ t.wsQueue = c.wsQueue) fun _ _ => False := by
  induction nodes generalizing c with
  | nil => exact ⟨fun _ _ h => h, .refl c, rfl⟩
  | cons node nodes ih =>
    rw [printPieces, post_bind]
    refine (ih _).bind fun _ t ht => ⟨fun dropped hand h => ?_, ?_, ht.2.2⟩
    · exact ht.1 dropped hand h.printPiece
    · exact ⟨ht.2.1.atStart_eq, ht.2.1.inContainer_eq, ht.2.1.kept_eq, ht.2.1.delivered_eq⟩

theorem carries_printWsRun (c : Context) : Post False printWsRun c
    (fun _ t => (∀ dropped, Carried dropped [] c → Carried dropped [] t) ∧ SamePlace c t
      ∧ t.wsQueue = c.wsQueue.tail) fun _ _ => False := by
  rw [printWsRun, post_bind, post_read]
  split
  · rename_i hqueue
    exact ⟨fun _ h => h, .refl c, by rw [hqueue]; rfl⟩
  · rename_i run runs hqueue
    refine (carries_printPieces run (c.setQueue runs)).imp (fun _ t ht => ?_) fun _ _ hf => hf
    have hplace : SamePlace c t :=
      ⟨ht.2.1.atStart_eq, ht.2.1.inContainer_eq, ht.2.1.kept_eq, ht.2.1.delivered_eq⟩
    refine ⟨fun dropped h => ht.1 dropped [] ?_, hplace, by rw [ht.2.2, hqueue]; rfl⟩
    obtain ⟨hflow, hout⟩ := h
    refine ⟨?_, hout⟩
    rw [hqueue, List.nil_append, List.flatten_cons] at hflow
    rw [List.append_nil]
    exact hflow

theorem carries_printAllWsRuns (c : Context) : Post False printAllWsRuns c
    (fun _ t => (∀ dropped, Carried dropped [] c → Carried dropped [] t) ∧ SamePlace c t
      ∧ t.wsQueue = [])
    fun _ _ => False := by
  have hruns : ∀ k (c : Context), c.wsQueue.length = k → Post False (printWsRuns k) c
      (fun _ t => (∀ dropped, Carried dropped [] c → Carried dropped [] t) ∧ SamePlace c t
        ∧ t.wsQueue = [])
      fun _ _ => False := by
    intro k
    induction k with
    | zero => exact fun c hk => ⟨fun _ h => h, .refl c, List.eq_nil_of_length_eq_zero hk⟩
    | succ k ih =>
      intro c hk
      rw [printWsRuns]
      refine (carries_printWsRun c).bind fun _ t ht => ?_
      refine (ih t (by rw [ht.2.2, List.length_tail, hk]; rfl)).bind fun _ r hr => ?_
      exact ⟨fun dropped h => hr.1 dropped (ht.1 dropped h), ht.2.1.trans hr.2.1, hr.2.2⟩
  rw [printAllWsRuns, post_bind, post_read]
  exact hruns _ c rfl

/-- The whitespace is carried on, and the state of the parse stays as it is. -/
def carrying : Discipline Halt Context where
  step := fun c t => (∀ dropped, Carried dropped [] c → Carried dropped [] t) ∧ SamePlace c t
  halt := fun _ c t => (∀ dropped, Carried dropped [] c → Carried dropped [] t) ∧ SamePlace c t
  refl := fun c => ⟨fun _ h => h, .refl c⟩
  trans := fun h h' => ⟨fun dropped hc => h'.1 dropped (h.1 dropped hc), h.2.trans h'.2⟩
  step_halt := fun h h' => ⟨fun dropped hc => h'.1 dropped (h.1 dropped hc), h.2.trans h'.2⟩

theorem tolerates_carrying : Tolerates carrying where
  halt := fun _ c => ⟨fun _ h => h, .refl c⟩
  write := fun _ _ _ _ _ horigin => ⟨fun _ h => h.unmoved (unmoved_write horigin), rfl, rfl, rfl,
    rfl⟩
  printWsRun := fun c => (carries_printWsRun c).imp (fun _ _ ht => ⟨ht.1, ht.2.1⟩) fun _ _ hf =>
    hf.elim
  refuse := by
    refine fun c => ⟨fun _ h => h.unmoved ?_, rfl, rfl, rfl, rfl⟩
    exact (unmoved_note rfl rfl).trans ((unmoved_note rfl rfl).trans (unmoved_note rfl rfl))

/-- A piece is kept. -/
theorem Carried.deliver (h : Carried dropped [] c) (ws : List UChar) :
    Carried dropped [] (c.deliver ws) := by
  obtain ⟨⟨htext, hids, hmember⟩, hout⟩ := h
  have hgiven : deliveredNodes (c.deliver ws) = deliveredNodes c ++ [c.piece ws] := by
    change (c.piece ws :: c.record.filterMap Event.delivery).reverse = _
    rw [List.reverse_cons, deliveredNodes]
  have hflow : printedNodes (c.deliver ws) ++ ([] ++ (c.deliver ws).wsQueue.flatten)
      = printedNodes c ++ ([] ++ c.wsQueue.flatten) ++ [c.piece ws] := by
    change printedNodes c ++ ([] ++ (enqueue c.inWsRun (c.piece ws) c.wsQueue).flatten) = _
    rw [flatten_enqueue]
    simp
  refine ⟨?_, hout⟩
  rw [hgiven, hflow]
  generalize printedNodes c ++ ([] ++ c.wsQueue.flatten) = flow at *
  constructor
  · rw [wsText_append, htext, wsText_append, List.append_assoc]
  · rw [ids_append, ids_append]
    exact List.suffix_append_self_iff.mpr hids
  · intro node hnode
    cases flow with
    | nil => simp at hnode
    | cons first flow =>
      rcases List.mem_append.mp hnode with hold | hnew
      · exact List.mem_append_left _ (hmember node hold)
      · exact List.mem_append_right _ hnew

/-- The version comment is dropped from the first run, before anything is printed. -/
theorem Carried.consumeStart (h : Carried [] [] c) (hprinted : printedNodes c = []) :
    ∃ line, (line = [] ∨ VersionLine line) ∧ Carried line [] c.consumeStart := by
  rw [Context.consumeStart]
  split
  · exact ⟨[], .inl rfl, h⟩
  · rename_i run runs hqueue
    rw [Context.dropStart]
    split
    · exact ⟨[], .inl rfl, h.unmoved (unmoved_note rfl rfl)⟩
    · rename_i rest hdrop
      obtain ⟨hne, line, hline, htext, hmember⟩ := dropVersionComment_some hdrop
      have hrest : (if rest = [] then runs else rest :: runs).flatten = rest ++ runs.flatten := by
        split
        · rename_i hnil
          rw [hnil, List.nil_append]
        · exact List.flatten_cons
      obtain ⟨⟨hgiven, hids, hold⟩, hout⟩ := h
      rw [hprinted, hqueue, List.flatten_cons, List.nil_append, List.nil_append] at hgiven hids hold
      refine ⟨line, .inr hline, ?_, hout⟩
      change Flow line (deliveredNodes c)
        (printedNodes c ++ ([] ++ (if rest = [] then runs else rest :: runs).flatten))
      rw [hprinted, hrest, List.nil_append, List.nil_append]
      constructor
      · rw [hgiven, List.nil_append, wsText_append, htext, wsText_append, List.append_assoc]
      · refine List.IsSuffix.trans ?_ hids
        rw [ids_append, ids_append]
        exact List.suffix_append_self_iff.mpr (suffix_of_dropVersionComment hdrop)
      · intro node hnode
        refine hold node ?_
        rw [List.tail_append_of_ne_nil hne]
        cases rest with
        | nil => exact List.mem_append_right _ (List.mem_of_mem_tail hnode)
        | cons first rest =>
          refine (List.mem_append.mp hnode).elim (fun hnode => ?_) fun hnode => ?_
          · exact List.mem_append_left _ (hmember node hnode)
          · exact List.mem_append_right _ hnode

end Carried

section Run

/-- The calls of a parse that makes a CIF, from within `n` containers: frames, loops and items are
in containers. The items have names, which those of a dropped column of a loop do not: what is kept
before such an item may be thrown away with it. -/
def Nested : Nat → List Callback → Prop
  | _, [] => True
  | _, .cifStart :: _ => False
  | n, .blockStart _ :: calls => Nested (n + 1) calls
  | n, .frameStart _ :: calls => 0 < n ∧ Nested (n + 1) calls
  | n, .blockEnd _ :: calls => 0 < n ∧ Nested (n - 1) calls
  | n, .frameEnd _ :: calls => 0 < n ∧ Nested (n - 1) calls
  | n, .item name _ :: calls => 0 < n ∧ name ≠ none ∧ Nested n calls
  | n, .loopStart _ :: calls => 0 < n ∧ Nested n calls
  | n, _ :: calls => Nested n calls

/-- These pieces have been given, and are carried on in their order; nothing is printed before the
version comment is dropped. -/
structure Ready (given : List UStr) (c : Context) : Prop where
  given_eq : (deliveredNodes c).map (·.ws) = given
  carried : ∃ dropped, (dropped = [] ∨ VersionLine dropped) ∧ Carried dropped [] c
    ∧ (c.atStart = true → dropped = [] ∧ printedNodes c = [])

/-- The state between two calls, within `n` containers. -/
structure Phase (kept : List UChar → UStr) (given : List UStr) (n : Nat) (c : Context) : Prop where
  ready : Ready given c
  kept_eq : c.kept = kept
  inContainer_eq : c.inContainer = n
  started : 0 < n → c.atStart = false

/-- The whitespace that was given comes out in its order, each piece once, without a version comment
in front. -/
def Preserved (given : List UStr) (c : Context) : Prop :=
  ∃ dropped, (dropped = [] ∨ VersionLine dropped) ∧ given.flatten = dropped ++ whitespaceOut c
    ∧ (deliveredNodes c).map (·.ws) = given ∧ ids (printedNodes c) <:+ ids (deliveredNodes c)
    ∧ ∀ node ∈ (printedNodes c).tail, node ∈ deliveredNodes c

variable {α : Type} {kept : List UChar → UStr} {given : List UStr} {n : Nat} {c t : Context}
  {m : Print α}

/-- A change of the context that has nothing to do with the whitespace. -/
structure Aside (c t : Context) : Prop where
  record_eq : t.record = c.record
  queue_eq : t.wsQueue = c.wsQueue
  out_eq : t.out = c.out
  atStart_eq : t.atStart = c.atStart
  kept_eq : t.kept = c.kept

theorem Ready.aside (h : Ready given c) (haside : Aside c t) : Ready given t := by
  obtain ⟨hrecord, hqueue, hout, hstart, _⟩ := haside
  obtain ⟨hgiven, dropped, hdropped, hcarried, hprinted⟩ := h
  have hunmoved := Unmoved.of_record hrecord hqueue hout
  refine ⟨by rw [hunmoved.delivered_eq, hgiven], dropped, hdropped, hcarried.unmoved hunmoved,
    fun hat => ?_⟩
  rw [hunmoved.printed_eq]
  exact hprinted (hstart ▸ hat)

theorem Phase.aside (h : Phase kept given n c) (haside : Aside c t)
    (hin : t.inContainer = c.inContainer) :
    Phase kept given n t :=
  ⟨h.ready.aside haside, haside.kept_eq.trans h.kept_eq, hin.trans h.inContainer_eq,
    fun hn => haside.atStart_eq.trans (h.started hn)⟩

theorem Phase.deliver (h : Phase kept given n c) (ws : List UChar) :
    Phase kept (given ++ [kept ws]) n (c.deliver ws) := by
  obtain ⟨⟨hgiven, dropped, hdropped, hcarried, hprinted⟩, hkept, hin, hstarted⟩ := h
  refine ⟨⟨?_, dropped, hdropped, hcarried.deliver ws, hprinted⟩, hkept, hin, hstarted⟩
  have hdelivered : deliveredNodes (c.deliver ws) = deliveredNodes c ++ [c.piece ws] := by
    change (c.piece ws :: c.record.filterMap Event.delivery).reverse = _
    rw [List.reverse_cons, deliveredNodes]
  rw [hdelivered, List.map_append, hgiven, ← hkept]
  rfl

theorem keeps_aside {g : Context → Context} (haside : ∀ c, Aside c (g c))
    (hin : ∀ c, (g c).inContainer = c.inContainer) : Keeps False carrying (modify g) := by
  intro c
  obtain ⟨hrecord, hqueue, hout, hstart, hkept⟩ := haside c
  have hunmoved := Unmoved.of_record hrecord hqueue hout
  exact ⟨fun _ h => h.unmoved hunmoved, hstart, hin c, hkept, hunmoved.delivered_eq⟩

theorem keeps_aside_bind {g : Context → Context} {f : Unit → Print α}
    (hf : ∀ a, Keeps False carrying (f a)) (haside : ∀ c, Aside c (g c))
    (hin : ∀ c, (g c).inContainer = c.inContainer) :
    Keeps False carrying (modify g >>= f) :=
  (keeps_aside haside hin).bind hf

/-- In a container, the program has left its start. -/
theorem Phase.keeps (h : Phase kept given n c) (hn : 0 < n) (hm : Keeps False carrying m) :
    Post False m c (fun _ t => Phase kept given n t) fun _ t => Ready given t := by
  have hphase : ∀ t, (∀ dropped, Carried dropped [] c → Carried dropped [] t) ∧ SamePlace c t →
      Phase kept given n t := by
    rintro t ⟨hcarried, hstart, hin, hkept, hdelivered⟩
    have hstarted : t.atStart = false := hstart.trans (h.started hn)
    obtain ⟨dropped, hdropped, hc, _⟩ := h.ready.carried
    have hgiven : (deliveredNodes t).map (·.ws) = given := by rw [hdelivered, h.ready.given_eq]
    refine ⟨⟨hgiven, dropped, hdropped, hcarried dropped hc, ?_⟩, hkept.trans h.kept_eq,
      hin.trans h.inContainer_eq, fun _ => hstarted⟩
    simp [hstarted]
  exact (hm c).imp (fun _ t ht => hphase t ht) fun _ t ht => (hphase t ht).ready

theorem Ready.leave (h : Ready given c) : Post False leaveStart c
    (fun _ t => Ready given t ∧ t.atStart = false ∧ t.inContainer = c.inContainer ∧ t.kept = c.kept)
    fun _ _ => False := by
  rw [leaveStart, post_bind, post_read, post_when]
  constructor
  · intro hstart
    obtain ⟨hgiven, dropped, _, hcarried, hprinted⟩ := h
    obtain ⟨rfl, hnone⟩ := hprinted hstart
    obtain ⟨line, hline, hconsumed⟩ := hcarried.consumeStart hnone
    have hplace : c.consumeStart.inContainer = c.inContainer ∧ c.consumeStart.kept = c.kept
        ∧ deliveredNodes c.consumeStart = deliveredNodes c := by
      rw [Context.consumeStart]
      split
      · exact ⟨rfl, rfl, rfl⟩
      · rw [Context.dropStart]
        split
        · exact ⟨rfl, rfl, rfl⟩
        · exact ⟨rfl, rfl, rfl⟩
    obtain ⟨hin, hkept, hdelivered⟩ := hplace
    refine ⟨⟨?_, line, hline, hconsumed.unmoved (.of_record rfl rfl rfl), by simp⟩, rfl, hin, hkept⟩
    exact (congrArg (List.map (·.ws)) hdelivered).trans hgiven
  · exact fun hstart => ⟨h, by simpa using hstart, rfl, rfl⟩

theorem Phase.inject (h : Phase kept given n c) : Post False injectNewline c
    (fun _ t => ∃ pieces, (pieces = [] ∨ pieces = [kept [UChar.nl]])
      ∧ Phase kept (given ++ pieces) n t)
    fun _ _ => False := by
  rw [injectNewline, post_bind, post_read, post_when]
  refine ⟨fun _ => ⟨_, .inr rfl, h.deliver _⟩, fun _ => ⟨[], .inl rfl, ?_⟩⟩
  rwa [List.append_nil]

theorem Phase.flush (h : Phase kept given n c) (hn : 0 < n) (flushed : Int) :
    Post False (flushContainer flushed) c (fun _ t => Phase kept given (n - 1) t) fun _ t =>
      Ready given t := by
  obtain ⟨hready, hkept, hin, hstarted⟩ := h
  have hleft : Phase kept given (n - 1) { c with inContainer := c.inContainer - 1 } := by
    refine ⟨hready.aside ⟨rfl, rfl, rfl, rfl, rfl⟩, hkept, ?_, fun _ => hstarted hn⟩
    change c.inContainer - 1 = _
    omega
  rw [flushContainer, post_bind, post_modify, post_when]
  exact ⟨fun _ => hleft.ready, fun _ => hleft⟩

theorem carries_loopStart (names : Except Int (List UStr)) :
    Keeps False carrying (handleLoopStart names) := by
  have h := tolerates_carrying
  refine keeps_aside_bind (fun _ => Keeps.read.bind fun c => ?_) (fun _ =>
    ⟨rfl, rfl, rfl, rfl, rfl⟩) fun _ => rfl
  refine .ite (fun _ => h.keeps_printAllWsRuns.bind fun _ => .pure _) fun _ => ?_
  refine keeps_aside_bind (fun _ => h.keeps_printLoopKeyword.bind fun _ => ?_)
    (fun _ => ⟨rfl, rfl, rfl, rfl, rfl⟩) fun _ => rfl
  refine (h.keeps_answer names).bind fun names => (h.keeps_printNames names).bind fun _ => ?_
  refine Keeps.read.bind fun _ => .when fun _ => ?_
  refine keeps_aside_bind (fun _ => h.keeps_put.bind fun _ => ?_) (fun _ =>
    ⟨rfl, rfl, rfl, rfl, rfl⟩) fun _ => rfl
  exact (h.keeps_printPlaceholders names).bind fun _ => h.keeps_putUnaccounted

theorem Phase.openBlock (h : Phase kept given n c) (code : Except Int UStr) :
    Post False (openBlock code) c (fun _ t => Phase kept given (n + 1) t)
      fun _ t => Ready given t := by
  rw [Linguist.openBlock]
  refine (h.ready.leave.imp (fun _ t ht => ht) fun _ _ hf => hf.elim).bind ?_
  rintro _ t ⟨hready, hstart, hin, hkept⟩
  rw [post_bind, post_modify]
  have hopened : Phase kept given (n + 1) { t with inWsRun := false, inContainer := t.inContainer
      + 1 } := by
    refine ⟨hready.aside ⟨rfl, rfl, rfl, rfl, rfl⟩, hkept.trans h.kept_eq, ?_, fun _ => hstart⟩
    change t.inContainer + 1 = _
    rw [hin, h.inContainer_eq, Int.natCast_succ]
  exact hopened.keeps (Nat.succ_pos n) (tolerates_carrying.keeps_printCode _ _)

theorem Phase.openFrame (h : Phase kept given n c) (hn : 0 < n) (code : Except Int UStr) :
    Post False (openFrame code) c (fun _ t => Phase kept given (n + 1) t) fun _ t =>
        Ready given t := by
  rw [Linguist.openFrame, post_bind, post_modify, post_bind, post_read, post_when]
  have hin : c.inContainer = n := h.inContainer_eq
  refine ⟨fun _ => ?_, fun hout => absurd hin (by simp at hout; omega)⟩
  rw [post_bind, post_modify]
  have hopened : Phase kept given (n + 1) { c with inWsRun := false, inContainer := c.inContainer
      + 1 } := by
    refine ⟨h.ready.aside ⟨rfl, rfl, rfl, rfl, rfl⟩, h.kept_eq, ?_, fun _ => h.started hn⟩
    change c.inContainer + 1 = _
    rw [hin, Int.natCast_succ]
  exact hopened.keeps (Nat.succ_pos n) (tolerates_carrying.keeps_printCode _ _)

theorem Phase.finishFrame (h : Phase kept given n c) (hn : 0 < n) (flushed : Int) :
    Post False (finishFrame flushed) c (fun _ t => Phase kept given (n - 1) t) fun _ t =>
      Ready given t := by
  have ht := tolerates_carrying
  rw [Linguist.finishFrame]
  refine (h.keeps hn ht.keeps_printAllWsRuns).bind fun printedWs t hphase => ?_
  rw [post_bind, post_modify, post_bind, post_read, post_bind]
  have haside : Phase kept given n { t with inWsRun := false } :=
    hphase.aside ⟨rfl, rfl, rfl, rfl, rfl⟩ rfl
  refine (haside.keeps hn (.when fun _ => ?_)).imp (fun _ r hr => hr.flush hn flushed) fun _ _ hr =>
    hr
  exact .ite (fun _ => ht.keeps_printULiteral) fun _ => ht.keeps_put

theorem Phase.item (h : Phase kept given n c) (hn : 0 < n) {name : UStr} (value : Value) :
    Post False (printItem (some name) value) c (fun _ t => Phase kept given n t) fun _ t =>
      Ready given t := by
  have ht := tolerates_carrying
  rw [printItem, post_bind, post_read]
  have hin : c.inContainer ≠ 0 := by
    rw [h.inContainer_eq]
    omega
  dsimp only
  rw [if_neg hin]
  refine h.keeps hn (keeps_aside_bind (fun _ => ?_) (fun _ => ⟨rfl, rfl, rfl, rfl, rfl⟩) fun _ =>
    rfl)
  exact Keeps.bind (.when fun _ => ht.keeps_printDataname name) fun _ => ht.keeps_printValue value 2

theorem Phase.error (h : Phase kept given n c) (code : Int) :
    Post False (errorCallback code) c (fun _ t => Phase kept given n t) fun _ t =>
      Ready given t := by
  rw [errorCallback, post_bind, post_modify, post_bind, post_read, post_ite]
  have haside : Phase kept given n { c with errorCount := c.errorCount + 1 } :=
    h.aside ⟨rfl, rfl, rfl, rfl, rfl⟩ rfl
  refine ⟨fun _ => haside.ready, fun _ => ?_⟩
  rw [post_when]
  exact ⟨fun _ => haside.aside ⟨rfl, rfl, rfl, rfl, rfl⟩ rfl, fun _ => haside⟩

theorem Phase.loopEnd (h : Phase kept given n c) : Post False handleLoopEnd c
    (fun _ t => ∃ pieces, (pieces = [] ∨ pieces = [kept [UChar.nl]])
      ∧ Phase kept (given ++ pieces) n t)
    fun _ _ => False := by
  rw [handleLoopEnd, post_bind, post_read, post_when]
  refine ⟨fun _ => ?_, fun _ => ⟨[], .inl rfl, by rwa [List.append_nil]⟩⟩
  rw [post_bind, post_modify]
  have haside : Phase kept given n { c with inLoop := false } :=
    h.aside ⟨rfl, rfl, rfl, rfl, rfl⟩ rfl
  exact haside.inject

theorem Phase.packetStart (h : Phase kept given n c) : Post False handlePacketStart c
    (fun _ t => ∃ pieces, (pieces = [] ∨ pieces = [kept [UChar.nl]])
      ∧ Phase kept (given ++ pieces) n t)
    fun _ _ => False := by
  rw [handlePacketStart, post_bind, post_read, post_when]
  exact ⟨fun _ => h.inject, fun _ => ⟨[], .inl rfl, by rwa [List.append_nil]⟩⟩

/-- A call of a parse that makes a CIF. -/
theorem Phase.call (h : Phase kept given n c) {call : Callback} {calls : List Callback}
    (hnested : Nested n (call :: calls)) : Post False (handle call) c
      (fun _ t => ∃ pieces k,
        call.Gives kept pieces ∧ Phase kept (given ++ pieces) k t ∧ Nested k calls)
      fun _ t => Ready given t := by
  -- most calls bring nothing
  have hnext : ∀ k t, call.Gives kept [] → Nested k calls → Phase kept given k t →
      ∃ pieces k, call.Gives kept pieces ∧ Phase kept (given ++ pieces) k t ∧ Nested k calls := by
    intro k t hgives hcalls ht
    exact ⟨[], k, hgives, by rwa [List.append_nil], hcalls⟩
  cases call with
  | cifStart => exact hnested.elim
  | blockStart code => exact (h.openBlock code).imp (fun _ t => hnext _ t rfl hnested) fun _ _ ht =>
    ht
  | blockEnd flushed =>
    exact (h.flush hnested.1 flushed).imp (fun _ t => hnext _ t rfl hnested.2) fun _ _ ht => ht
  | frameStart code =>
    exact (h.openFrame hnested.1 code).imp (fun _ t => hnext _ t rfl hnested.2) fun _ _ ht => ht
  | frameEnd flushed =>
    exact (h.finishFrame hnested.1 flushed).imp (fun _ t => hnext _ t rfl hnested.2) fun _ _ ht =>
      ht
  | loopStart names =>
    exact (h.keeps hnested.1 (carries_loopStart names)).imp (fun _ t => hnext _ t rfl hnested.2)
      fun _ _ ht => ht
  | loopEnd =>
    refine h.loopEnd.imp ?_ fun _ _ hf => hf.elim
    rintro _ t ⟨pieces, hpieces, ht⟩
    exact ⟨pieces, n, hpieces, ht, hnested⟩
  | packetStart =>
    refine h.packetStart.imp ?_ fun _ _ hf => hf.elim
    rintro _ t ⟨pieces, hpieces, ht⟩
    exact ⟨pieces, n, hpieces, ht, hnested⟩
  | packetEnd => exact hnext n c rfl hnested h
  | item name value =>
    obtain ⟨hn, hname, hcalls⟩ := hnested
    obtain ⟨name, rfl⟩ := Option.ne_none_iff_exists'.mp hname
    exact (h.item hn value).imp (fun _ t => hnext _ t rfl hcalls) fun _ _ ht => ht
  | whitespace ws => exact ⟨[kept ws], n, rfl, h.deliver ws, hnested⟩
  | error code => exact (h.error code).imp (fun _ t => hnext _ t rfl hnested) fun _ _ ht => ht

/-- The calls that are handled bring what is given, and all of them are handled unless a code ends
the parse. -/
theorem Phase.calls {calls : List Callback} (h : Phase kept given n c) (hnested : Nested n calls) :
    Post False (handleAll calls) c
      (fun _ t => ∃ pieces k, Given kept calls pieces ∧ Phase kept (given ++ pieces) k t)
      fun _ t => ∃ handled pieces, handled <+: calls ∧ Given kept handled pieces
        ∧ Ready (given ++ pieces) t := by
  induction calls generalizing n c given with
  | nil => exact ⟨[], n, rfl, by rwa [List.append_nil]⟩
  | cons call calls ih =>
    rw [handleAll]
    refine ((h.call hnested).imp (fun _ _ ht => ht) fun _ t ht => ?_).bind ?_
    · exact ⟨[], [], List.nil_prefix, rfl, by rwa [List.append_nil]⟩
    · rintro _ t ⟨first, k, hgives, hphase, hcalls⟩
      refine (ih hphase hcalls).imp ?_ ?_
      · rintro _ r ⟨rest, k, hgiven, hr⟩
        exact ⟨first ++ rest, k, ⟨first, rest, rfl, hgives, hgiven⟩, by rwa [← List.append_assoc]⟩
      · rintro _ r ⟨handled, rest, hprefix, hgiven, hr⟩
        refine ⟨call :: handled, first ++ rest, ?_, ⟨first, rest, rfl, hgives, hgiven⟩,
          by rwa [← List.append_assoc]⟩
        exact (List.prefix_cons_inj call).mpr hprefix

/-- At the end, all the whitespace that is left is printed. -/
theorem Ready.handleCifEnd (h : Ready given c) :
    Post False handleCifEnd c (fun _ t => Preserved given t) fun _ _ => False := by
  rw [Linguist.handleCifEnd]
  refine h.leave.bind ?_
  rintro _ t ⟨⟨hgiven, dropped, hdropped, hcarried, _⟩, _, _, _⟩
  refine (carries_printAllWsRuns t).bind ?_
  rintro nprinted r ⟨hr, hplace, hqueue⟩
  have hend : ∀ r : Context, (deliveredNodes r).map (·.ws) = given → Carried dropped [] r →
      r.wsQueue = [] → Preserved given r := by
    intro r hgiven hr hqueue
    obtain ⟨⟨htext, hids, hmember⟩, hout⟩ := hr
    rw [hqueue, List.flatten_nil, List.append_nil, List.append_nil] at htext hids hmember
    refine ⟨dropped, hdropped, ?_, hgiven, hids, hmember⟩
    rw [← hgiven, ← List.flatMap_def, hout]
    exact htext
  have hgiven' : (deliveredNodes r).map (·.ws) = given := by rw [hplace.delivered_eq, hgiven]
  rw [post_when]
  refine ⟨fun _ => ?_, fun _ => hend r hgiven' (hr dropped hcarried) hqueue⟩
  exact hend _ hgiven' ((hr dropped hcarried).unmoved (unmoved_write (by decide))) hqueue

variable (outputFormat : Format) (extraWs extraEol : UStr) (haltOnError : Bool)

theorem phase_initial : Phase (fun ws => cstr (translateWhitespace extraEol extraWs ws)) [] 0
    (Context.initial outputFormat extraWs extraEol haltOnError) where
  ready := by
    refine ⟨rfl, [], .inl rfl, ⟨⟨rfl, List.suffix_refl _, ?_⟩, rfl⟩, fun _ => ⟨rfl, rfl⟩⟩
    simp [printedNodes, Context.initial]
  kept_eq := rfl
  inContainer_eq := rfl
  started := by simp

/-- In a parse that makes a CIF and drops no column of a loop, all whitespace and all comments of
the callbacks that are handled come out in their order, between the headings, names and values, but
for the version comment of the input; they come out as they are but for the extra blanks and
terminators that are replaced, and line feeds are added only where packets begin or loops end. Every
callback is handled unless one answers a code, after which the whitespace still comes out. A failed
assertion ends the program before that; and with a list or table in CIF 1.1 format, what is printed
at the end has been freed. -/
theorem whitespace_preserved {calls : List Callback} (hnested : Nested 0 calls) :
    ∃ r c handled given, convert (.cifStart :: calls)
      (.initial outputFormat extraWs extraEol haltOnError) = some (r, c)
      ∧ handled <+: calls
      ∧ ((handleAll (.cifStart :: calls) (.initial outputFormat extraWs extraEol haltOnError)).map
        (·.1) = some (.ok ()) → handled = calls)
      ∧ Given (fun ws => cstr (translateWhitespace extraEol extraWs ws)) handled given
      ∧ (r ≠ .error .assertion → Unrefused c → Preserved given c) := by
  let kept : List UChar → UStr := fun ws => cstr (translateWhitespace extraEol extraWs ws)
  let c₀ : Context := .initial outputFormat extraWs extraEol haltOnError
  have hheader : Post False printHeader c₀ (fun _ t => Phase kept [] 0 t) fun _ _ => False := by
    obtain ⟨⟨hgiven, dropped, hdropped, hcarried, hprinted⟩, hkept, hin, hstarted⟩ :=
      phase_initial outputFormat extraWs extraEol haltOnError
    exact ⟨⟨hgiven, dropped, hdropped, hcarried.unmoved (unmoved_write (by decide)), hprinted⟩,
      hkept, hin, hstarted⟩
  have hcalls : Post False (handleAll (.cifStart :: calls)) c₀
      (fun _ t => ∃ given, Given kept calls given ∧ Ready given t)
      fun _ t => ∃ handled given, handled <+: calls ∧ Given kept handled given ∧ Ready given t := by
    rw [handleAll]
    refine (hheader.imp (fun _ _ ht => ht) fun _ _ hf => hf.elim).bind fun _ t ht => ?_
    refine (ht.calls hnested).imp ?_ fun _ _ hr => hr
    rintro _ r ⟨given, k, hgiven, hr⟩
    exact ⟨given, hgiven, hr.ready⟩
  obtain ⟨⟨result, t⟩, ht⟩ := Halts.exists hcalls
  have hready : ∃ handled given, handled <+: calls ∧ (result = .ok () → handled = calls)
      ∧ Given kept handled given ∧ Ready given t := by
    cases result with
    | ok a =>
      obtain ⟨given, hgiven, hr⟩ := hcalls.of_ok ht
      exact ⟨calls, given, List.prefix_refl _, fun _ => rfl, hgiven, hr⟩
    | error e =>
      obtain ⟨handled, given, hprefix, hgiven, hr⟩ := hcalls.of_error ht
      refine ⟨handled, given, hprefix, fun h => ?_, hgiven, hr⟩
      cases h
  obtain ⟨handled, given, hprefix, hall, hgiven, hr⟩ := hready
  have hfirst : (handleAll (.cifStart :: calls) c₀).map (·.1) = some (.ok ()) →
      handled = calls := by
    rw [ht]
    exact fun h => hall (Option.some.inj h)
  obtain ⟨⟨r, c⟩, hc⟩ := Halts.exists hr.handleCifEnd
  by_cases hassert : result = .error .assertion
  · refine ⟨.error .assertion, t, handled, given, ?_, hprefix, hfirst, hgiven,
      fun hne => absurd rfl hne⟩
    rw [convert, bind_apply, attempt_apply, ht, hassert]
    rfl
  · refine ⟨r, c, handled, given, ?_, hprefix, hfirst, hgiven, fun _ _ => ?_⟩
    · rw [convert, bind_apply, attempt_apply, ht]
      rcases result with (_ | _) | _
      · exact hc
      · exact absurd rfl hassert
      · exact hc
    · cases r with
      | ok a => exact hr.handleCifEnd.of_ok hc
      | error e => exact (hr.handleCifEnd.of_error hc).elim

/-- A block with an item, after a version comment and a line of its own. -/
theorem whitespace_preserved_block :
    let calls : List Callback := [.whitespace (units "#\\#CIF_1.1\n"), .whitespace (units "# a\n"),
      .blockStart (.ok (units "b")), .whitespace [UChar.nl], .item (some (units "_x")) .na,
      .blockEnd 0]
    Nested 0 calls ∧ ∃ c given, convert (.cifStart :: calls) (.initial .cif20 [] [] false)
      = some (.ok (), c)
      ∧ Given (fun ws => cstr (translateWhitespace [] [] ws)) calls given
        ∧ (Unrefused c → Preserved given c) := by
  intro calls
  have hnested : Nested 0 calls := by simp [calls, Nested]
  obtain ⟨r, c, handled, given, hrun, -, hall, hgiven, hpreserved⟩ :=
    whitespace_preserved .cif20 [] [] false hnested
  obtain rfl : handled = calls := hall (by decide +kernel)
  have hok : (convert (.cifStart :: calls) (.initial .cif20 [] [] false)).map (·.1)
      = some (.ok ()) := by
    decide +kernel
  rw [hrun] at hok
  obtain rfl : r = .ok () := Option.some.inj hok
  refine ⟨hnested, c, given, hrun, hgiven, hpreserved ?_⟩
  rintro ⟨⟩

end Run

end CifApi.Linguist
