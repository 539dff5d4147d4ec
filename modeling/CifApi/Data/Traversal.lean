import Mathlib.Tactic.Common

/-! Depth-first traversals of a tree that the answers of callbacks prune and end. -/

universe u v w x

/-- What the answer of a callback asks for. -/
inductive Direction (ω : Type w) where
  | goOn
  | skipCurrent
  | skipSiblings
  | stop (answer : ω)
  deriving DecidableEq

namespace Direction

variable {ω : Type w}

def stops : Direction ω → Bool
  | stop _ => true
  | _ => false

/-- To what comes after an element it makes no difference whether the element has been skipped. -/
def settle : Direction ω → Direction ω
  | skipCurrent => goOn
  | d => d

end Direction

/-- A part of a visit, from the state that callbacks keep: where to go on, the state it leaves and
the callbacks with their answers. -/
abbrev Visit (κ : Type v) (ω : Type w) (σ : Type x) := σ → Direction ω × σ × List (κ × ω)

namespace Visit

variable {κ : Type v} {ω : Type w} {σ : Type x}

def ret (d : Direction ω) : Visit κ ω σ := fun u => (d, u, [])

def bind (f : Visit κ ω σ) (k : Direction ω → Visit κ ω σ) : Visit κ ω σ := fun u =>
  let (d, u', newer) := f u
  let (d', u'', newer') := k d u'
  (d', u'', newer ++ newer')

theorem ret_bind (d : Direction ω) (k : Direction ω → Visit κ ω σ) : (ret d).bind k = k d := by
  funext u
  simp [bind, ret]

theorem bind_assoc (f : Visit κ ω σ) (k l : Direction ω → Visit κ ω σ) :
    (f.bind k).bind l = f.bind fun d => (k d).bind l := by
  funext u
  simp [bind]

/-- One callback. -/
def ask (handler : κ → σ → ω × σ) (direct : ω → Direction ω) (call : κ) : Visit κ ω σ := fun u =>
  (direct (handler call u).1, (handler call u).2, [(call, (handler call u).1)])

/-- After a start callback: the inside of the element, unless it is skipped. -/
def inside (body : Visit κ ω σ) : Direction ω → Visit κ ω σ
  | .goOn => body
  | d => ret d

/-- After an element: its later siblings, unless they are skipped. -/
def afterSibling (rest : Visit κ ω σ) : Direction ω → Visit κ ω σ
  | .goOn | .skipCurrent => rest
  | d => ret d

/-- After children whose skipping does not concern their parent. -/
def afterSparing (rest : Visit κ ω σ) : Direction ω → Visit κ ω σ
  | .stop a => ret (.stop a)
  | _ => rest

/-- After the other children: the end callback, unless some of them have been skipped. -/
def afterChildren (finish : Visit κ ω σ) : Direction ω → Visit κ ω σ
  | .goOn | .skipCurrent => finish
  | .skipSiblings => ret .goOn
  | .stop a => ret (.stop a)

/-- Stops where, and only where, an answer says so. -/
def StopsAtAnswer (direct : ω → Direction ω) (f : Visit κ ω σ) : Prop :=
  ∀ u, (∀ e ∈ (f u).2.2, ∀ a, direct e.2 = .stop a → (f u).1 = .stop a)
    ∧ ∀ a, (f u).1 = .stop a → ∃ e ∈ (f u).2.2, direct e.2 = .stop a

variable {direct : ω → Direction ω}

theorem StopsAtAnswer.ask (handler : κ → σ → ω × σ) (call : κ) :
    StopsAtAnswer direct (ask handler direct call) := by
  intro u
  refine ⟨?_, ?_⟩
  · intro e he a ha
    obtain rfl := List.mem_singleton.mp he
    exact ha
  · intro a ha
    exact ⟨_, List.mem_singleton_self _, ha⟩

theorem StopsAtAnswer.ret {d : Direction ω} (hd : d.stops = false) :
    StopsAtAnswer direct (ret d : Visit κ ω σ) := by
  intro u
  refine ⟨by simp [Visit.ret], ?_⟩
  rintro a rfl
  simp [Direction.stops] at hd

theorem StopsAtAnswer.bind {f : Visit κ ω σ} {k : Direction ω → Visit κ ω σ}
    (hf : StopsAtAnswer direct f) (hstop : ∀ a, k (.stop a) = Visit.ret (.stop a))
    (hk : ∀ d : Direction ω, d.stops = false → StopsAtAnswer direct (k d)) :
    StopsAtAnswer direct (f.bind k) := by
  intro u
  obtain ⟨hentry, hcause⟩ := hf u
  cases hd : (f u).1 with
  | stop a =>
    obtain ⟨e, he, hdirect⟩ := hcause a hd
    have heq : f.bind k u = (.stop a, (f u).2.1, (f u).2.2) := by
      simp only [Visit.bind, hd, hstop, Visit.ret, List.append_nil]
    rw [heq]
    refine ⟨?_, ?_⟩
    · intro e' he' a' ha'
      rw [← hd]
      exact hentry e' he' a' ha'
    · rintro a' ⟨⟩
      exact ⟨e, he, hdirect⟩
  | goOn | skipCurrent | skipSiblings =>
    obtain ⟨hentry', hcause'⟩ := hk (f u).1 (by simp [hd, Direction.stops]) (f u).2.1
    refine ⟨?_, ?_⟩
    · intro e he a ha
      rcases List.mem_append.mp he with hfirst | hsecond
      · have heq := hentry e hfirst a ha
        simp [hd] at heq
      · exact hentry' e hsecond a ha
    · intro a ha
      obtain ⟨e, he, hdirect⟩ := hcause' a ha
      exact ⟨e, List.mem_append_right _ he, hdirect⟩

/-- Makes only calls of a kind. -/
def Calls (P : κ → Prop) (f : Visit κ ω σ) : Prop := ∀ u, ∀ e ∈ (f u).2.2, P e.1

variable {P : κ → Prop}

theorem Calls.ask {handler : κ → σ → ω × σ} {call : κ} (h : P call) :
    Calls P (ask handler direct call) := by
  intro u e he
  obtain rfl := List.mem_singleton.mp he
  exact h

theorem Calls.ret (d : Direction ω) : Calls P (ret d : Visit κ ω σ) := by
  intro u e he
  simp [Visit.ret] at he

theorem Calls.bind {f : Visit κ ω σ} {k : Direction ω → Visit κ ω σ} (hf : Calls P f)
    (hk : ∀ d, Calls P (k d)) : Calls P (f.bind k) := by
  intro u e he
  rcases List.mem_append.mp he with hfirst | hsecond
  · exact hf u e hfirst
  · exact hk _ _ e hsecond

end Visit

/-- An element of the tree: one callback, or a start callback, two kinds of children and an end
callback. To skip siblings among the children drops the end callback, among the sparing ones it does
not. -/
inductive Element (κ : Type v) where
  | leaf (call : κ)
  | node (start : κ) (sparing children : List (Element κ)) (finish : κ)

namespace Element

variable {κ : Type v} {ω : Type w} {σ : Type x} (handler : κ → σ → ω × σ) (direct : ω → Direction ω)

mutual

def visit : Element κ → Visit κ ω σ
  | leaf call => Visit.ask handler direct call
  | node start sparing children finish =>
    (Visit.ask handler direct start).bind (Visit.inside
      ((visitAll sparing).bind (Visit.afterSparing
        ((visitAll children).bind (Visit.afterChildren (Visit.ask handler direct finish))))))

/-- Visits siblings, up to one that asks for the rest to be skipped. -/
def visitAll : List (Element κ) → Visit κ ω σ
  | [] => Visit.ret .goOn
  | e :: es => (visit e).bind (Visit.afterSibling (visitAll es))

end

mutual

theorem stopsAtAnswer_visit : ∀ e : Element κ, Visit.StopsAtAnswer direct (visit handler direct e)
  | leaf call => .ask handler call
  | node start sparing children finish => by
    rw [visit]
    refine .bind (.ask handler start) (fun _ => rfl) fun d hd => ?_
    cases d with
    | goOn =>
      rw [Visit.inside]
      refine .bind (stopsAtAnswer_visitAll sparing) (fun _ => rfl) fun d hd => ?_
      have hchildren : Visit.StopsAtAnswer direct ((visitAll handler direct children).bind
          (Visit.afterChildren (Visit.ask handler direct finish))) := by
        refine .bind (stopsAtAnswer_visitAll children) (fun _ => rfl) fun d hd => ?_
        cases d with
        | stop a => simp [Direction.stops] at hd
        | skipSiblings => exact .ret rfl
        | goOn | skipCurrent => exact .ask handler finish
      cases d with
      | stop a => simp [Direction.stops] at hd
      | goOn | skipCurrent | skipSiblings => exact hchildren
    | stop a => simp [Direction.stops] at hd
    | skipCurrent | skipSiblings => exact .ret rfl

theorem stopsAtAnswer_visitAll : ∀ es : List (Element κ),
    Visit.StopsAtAnswer direct (visitAll handler direct es)
  | [] => .ret rfl
  | e :: es => by
    rw [visitAll]
    refine .bind (stopsAtAnswer_visit e) (fun _ => rfl) fun d hd => ?_
    cases d with
    | stop a => simp [Direction.stops] at hd
    | skipSiblings => exact .ret rfl
    | goOn | skipCurrent => exact stopsAtAnswer_visitAll es

end

mutual

/-- Every call that belongs to the element is of a kind. -/
def All (P : κ → Prop) : Element κ → Prop
  | leaf call => P call
  | node start sparing children finish => P start ∧ AllOf P sparing ∧ AllOf P children ∧ P finish

def AllOf (P : κ → Prop) : List (Element κ) → Prop
  | [] => True
  | e :: es => All P e ∧ AllOf P es

end

theorem allOf_map {α : Type u} {P : κ → Prop} {f : α → Element κ} {as : List α}
    (h : ∀ a, (f a).All P) : AllOf P (as.map f) := by
  induction as with
  | nil => exact trivial
  | cons a as ih => exact ⟨h a, ih⟩

variable {handler direct}

mutual

theorem calls_visit {P : κ → Prop} :
    ∀ {e : Element κ}, e.All P → Visit.Calls P (visit handler direct e)
  | leaf call, h => .ask h
  | node start sparing children finish, ⟨hstart, hsparing, hchildren, hfinish⟩ => by
    rw [visit]
    refine .bind (.ask hstart) fun d => ?_
    cases d with
    | goOn =>
      rw [Visit.inside]
      refine .bind (calls_visitAll hsparing) fun d => ?_
      have hrest : Visit.Calls P ((visitAll handler direct children).bind
          (Visit.afterChildren (Visit.ask handler direct finish))) := by
        refine .bind (calls_visitAll hchildren) fun d => ?_
        cases d with
        | goOn | skipCurrent => exact .ask hfinish
        | skipSiblings => exact .ret .goOn
        | stop a => exact .ret (.stop a)
      cases d with
      | goOn | skipCurrent | skipSiblings => exact hrest
      | stop a => exact .ret (.stop a)
    | skipCurrent | skipSiblings => exact .ret _
    | stop a => exact .ret _

theorem calls_visitAll {P : κ → Prop} : ∀ {es : List (Element κ)}, AllOf P es →
    Visit.Calls P (visitAll handler direct es)
  | [], _ => .ret .goOn
  | e :: es, ⟨he, hes⟩ => by
    rw [visitAll]
    refine .bind (calls_visit he) fun d => ?_
    cases d with
    | goOn | skipCurrent => exact calls_visitAll hes
    | skipSiblings => exact .ret _
    | stop a => exact .ret _

end

/-- No element is passed by in silence. -/
theorem visit_log_ne_nil (e : Element κ) (u : σ) : (visit handler direct e u).2.2 ≠ [] := by
  cases e with
  | leaf call => simp [visit, Visit.ask]
  | node start sparing children finish => simp [visit, Visit.bind, Visit.ask]

end Element
