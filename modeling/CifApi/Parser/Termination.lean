import CifApi.Parser.Discipline
import CifApi.Parser.LoopBody
import CifApi.Scanner.Discipline
import CifApi.Scanner.TokenProgress

/-! Parsing finishes: every loop and every recursion of the productions uses up text or a token. -/
namespace CifApi

open Exec Buffer Scanner

variable {σ : Type} {cfg : Config σ} {s : Scanner σ} {w : Nat}

/-- Nothing of the text or of the current token is changed. -/
def SameToken (s s' : Scanner σ) : Prop :=
  s'.toBuffer = s.toBuffer ∧ s'.ttype = s.ttype ∧ s'.tvalueLength = s.tvalueLength

theorem SameText.sameToken {s s' : Scanner σ} (h : SameText s s') : SameToken s s' := by
  rw [SameText] at h
  rw [h]
  exact ⟨rfl, rfl, rfl⟩

/-- A computation that finishes and leaves the text and the current token alone. -/
def inert : Discipline Int (Scanner σ) where
  step := SameToken
  halt := fun _ _ _ => True
  refl := fun _ => ⟨rfl, rfl, rfl⟩
  trans := fun h h' => ⟨h'.1.trans h.1, h'.2.1.trans h.2.1, h'.2.2.trans h.2.2⟩
  step_halt := fun _ _ => trivial

abbrev Inert {α : Type} (m : Parse σ α) : Prop := Keeps False inert m

theorem Inert.returns {α : Type} {m : Parse σ α} (h : Inert m) (s : Scanner σ) :
    Returns m s fun _ s' => SameToken s s' := h s

theorem inert_errorCallback {cut : Prop} (r : ErrorReport) :
    Keeps cut inert (errorCallback cfg r) :=
  Keeps.update fun _ => ⟨rfl, rfl, rfl⟩

/-- Calls neither read text nor end a token. -/
theorem inertCalls {cut : Prop} : ToleratesCalls cfg cut inert where
  stop := fun _ _ => trivial
  skip := fun _ _ => ⟨rfl, rfl, rfl⟩
  halt_skip := fun _ _ => trivial
  store := fun _ _ _ _ _ _ => ⟨rfl, rfl, rfl⟩
  element := fun _ _ => ⟨rfl, rfl, rfl⟩
  enter := fun _ _ _ _ => ⟨rfl, rfl, rfl⟩
  leave := fun _ _ _ _ => ⟨rfl, rfl, rfl⟩
  report := fun _ _ _ _ _ => .bind (inert_errorCallback _) fun _ => .when fun _ => .stop fun _ =>
    trivial
  handler := fun _ _ hf _ => .bind (.update fun _ => ⟨rfl, rfl, rfl⟩) hf

theorem inertRecording {cut : Prop} (hends : cut ∨ ∀ value, cfg.props value ≠ none) :
    ToleratesRecording cfg cut inert where
  toToleratesCalls := inertCalls
  binding := fun _ _ _ _ _ _ => ⟨rfl, rfl, rfl⟩
  ends := hends

/-- A scanner with less than `w` left to do. -/
def Spent (cfg : Config σ) (w : Nat) (s : Scanner σ) : Prop :=
  TokenInv cfg.cifVersion s.ttype s.tvalueLength s.toBuffer ∧
    work cfg.cifVersion s.ttype s.toBuffer < w

theorem Ready.sameToken {s' : Scanner σ} (h : Ready cfg w s) (hs : SameToken s s') :
    Ready cfg w s' := by
  obtain ⟨h1, h2, h3⟩ := hs
  rw [Ready, h1, h2, h3]
  exact h

theorem Spent.sameToken {s' : Scanner σ} (h : Spent cfg w s) (hs : SameToken s s') :
    Spent cfg w s' := by
  obtain ⟨h1, h2, h3⟩ := hs
  rw [Spent, h1, h2, h3]
  exact h

theorem Spent.ready (h : Spent cfg w s) : Ready cfg w s := ⟨h.1, Nat.le_of_lt h.2⟩

theorem Ready.self (h : Ready cfg w s) : Ready cfg (work cfg.cifVersion s.ttype s.toBuffer) s :=
  ⟨h.1, Nat.le_refl _⟩

theorem Spent.self (h : Spent cfg w s) : Ready cfg (work cfg.cifVersion s.ttype s.toBuffer) s :=
  ⟨h.1, Nat.le_refl _⟩

theorem Ready.mono {w' : Nat} (h : Ready cfg w s) (hw : w ≤ w') : Ready cfg w' s :=
  ⟨h.1, Nat.le_trans h.2 hw⟩

theorem Ready.spent {w' : Nat} (h : Ready cfg w' s) (hw : w' < w) : Spent cfg w s :=
  ⟨h.1, Nat.lt_of_le_of_lt h.2 hw⟩

/-- Consuming the current token leaves less to do. -/
theorem Ready.consume (h : Ready cfg w s) (hp : s.textStart < s.nextChar) :
    Spent cfg w s.consumeToken := by
  refine ⟨tokenInv_consumed h.1.kept h.1.table, ?_⟩
  rw [work_consumed]
  have hle := h.2
  simp only [work, tokenWeight] at hle
  rw [if_neg (by omega)] at hle
  split at hle
  · omega
  · split at hle <;> omega

theorem work_lt_tokenBound (h : Ready cfg w s) :
    work cfg.cifVersion s.ttype s.toBuffer < s.tokenBound := by
  have h1 := h.1.text_le
  have h2 := h.1.kept
  simp only [work, tokenWeight, tokenBound, remaining]
  split
  · omega
  · split
    · have := h2 (by omega)
      omega
    · split <;> omega

/-- A loop over tokens whose rounds each use up some of the work finishes, with what its rounds
keep. -/
theorem halts_tokenLoop {τ ω : Type} {body : τ → Parse σ (τ ⊕ ω)} {t : τ} {I : τ → Scanner σ → Prop}
    {Q : ω → Scanner σ → Prop} {E : Int → Scanner σ → Prop} (h : Ready cfg w s) (hI : I t s)
    (hbody : ∀ t w' s', w' ≤ w → Ready cfg w' s' → I t s' → Halts (body t) s'
      (Round (fun t' s'' => I t' s'' ∧ Spent cfg w' s'') (fun x s'' => Q x s'' ∧ Ready cfg w' s''))
        E) :
    Halts (loop tokenBound body t) s (fun x s' => Q x s' ∧ Ready cfg w s') E := by
  refine Halts.loop (I := fun t s' => I t s' ∧ Ready cfg w s')
    (fun _ s' => work cfg.cifVersion s'.ttype s'.toBuffer) ?_ ⟨hI, h⟩ (work_lt_tokenBound h)
  rintro t s' ⟨hI', hs'⟩
  refine (hbody t _ s' hs'.2 hs'.self hI').imp ?_ fun _ _ he => he
  rintro (t' | x) s'' ⟨hkept, h'⟩
  · exact ⟨⟨hkept, h'.ready.mono hs'.2⟩, h'.2⟩
  · exact ⟨hkept, h'.mono hs'.2⟩

theorem returns_tokenLoop {τ ω : Type} {body : τ → Parse σ (τ ⊕ ω)} {t : τ} (h : Ready cfg w s)
    (hbody : ∀ t w' s', w' ≤ w → Ready cfg w' s' →
      Returns (body t) s' (Round (fun _ t' => Spent cfg w' t') (fun _ t' => Ready cfg w' t'))) :
    Returns (loop tokenBound body t) s fun _ s' => Ready cfg w s' := by
  refine Post.imp (halts_tokenLoop (I := fun _ _ => True) (Q := fun _ _ => True) h trivial
    fun t w' s' hw' hs' _ => (hbody t w' s' hw' hs').imp ?_) (fun _ _ h' => h'.2) fun _ _ _ =>
      trivial
  rintro (t' | x) s'' h'
  · exact ⟨trivial, h'⟩
  · exact ⟨trivial, h'⟩

/-- A token under way is what `next_token` answers. -/
theorem nextToken_of_pending (h : s.textStart < s.nextChar) :
    nextToken cfg s = some (.ok (), s) := by
  obtain ⟨n, hn⟩ : ∃ n, s.tokenBound = n + 1 := ⟨4 * (s.bufferLimit + s.unread) + 3, rfl⟩
  have hno : ¬ s.nextChar ≤ s.textStart := by omega
  simp only [nextToken, bind_apply, read_apply, loop, hn, rounds_succ, if_neg hno, pure_apply,
    modify_apply]
  rfl

/-- A colon pushed back gives back no more than the key had to give. -/
theorem work_pushBack {v : Int} {t t' : TokenType} {b : Buffer} (hk : t = .key ∨ t = .tkey)
    (ht : ¬ (t' = .key ∨ t' = .tkey)) (hp : b.textStart + 2 ≤ b.nextChar)
    (hkept : 2 ≤ v → b.nextChar ≤ b.bufferLimit) :
    work v t' { b with nextChar := b.nextChar - 1 } ≤ work v t b := by
  have h1 : ¬ b.nextChar ≤ b.textStart := by omega
  have h2 : ¬ b.nextChar - 1 ≤ b.textStart := by omega
  have h3 : ∀ n, ({ b with nextChar := n } : Buffer).unread = b.unread := fun _ => rfl
  simp only [work, tokenWeight, remaining, h1, h2, h3, if_false, hk, ht, true_and, false_and]
  split
  · have := hkept (by omega)
    omega
  · split <;> omega

theorem returns_nextToken_same (hcfg : cfg.Legal) (h : Ready cfg w s) :
    Returns (nextToken cfg) s fun _ s' => Ready cfg w s' ∧
      (s'.ttype = .end_ ∨ s'.textStart < s'.nextChar) ∧ (s.textStart < s.nextChar → s' = s) := by
  by_cases hp : s.textStart < s.nextChar
  · rw [Returns, Post, nextToken_of_pending hp]
    exact ⟨h, Or.inr hp, fun _ => rfl⟩
  · exact (returns_nextToken hcfg h).imp fun _ _ h₁ => ⟨h₁.1, h₁.2, fun hp' => (hp hp').elim⟩

section Values

theorem returns_reportToken {code : Int} (hc : code ≠ Code.frameNotAllowed) :
    Returns (reportToken cfg code) s fun _ s' => SameToken s s' :=
  inertCalls.stores.keeps_reportToken hc s

/-- The key becomes a value, with no more to do than before. -/
theorem returns_pushBackColon (h : Ready cfg w s) (hk : s.ttype = .key ∨ s.ttype = .tkey)
    (hp : s.textStart < s.nextChar) :
    Returns (pushBackColon cfg) s fun _ s' => Ready cfg w s' ∧ s'.ttype.startsValue ∧
      s'.textStart < s'.nextChar := by
  have h1 := h.1.key hk hp
  have h2 := h.1.text_lt hp
  have h3 := h.1.kept
  have hle := h.2
  rw [Returns, pushBackColon, post_bind, post_modify, post_bind, post_read]
  have hty : ∀ t' : TokenType, t' = (if s.ttype = .tkey then TokenType.tvalue else .qvalue) →
      t' = .tvalue ∨ t' = .qvalue := by
    rintro _ rfl
    by_cases hx : s.ttype = .tkey <;> simp [hx]
  generalize ht : (if s.ttype = .tkey then TokenType.tvalue else .qvalue) = t' at hty
  have hty := hty t' rfl
  have hno : ¬ (t' = .key ∨ t' = .tkey) := by
    rcases hty with rfl | rfl <;> simp
  refine ⟨⟨⟨?_, fun _ => h2, ?_, fun hx => (hno hx).elim, ?_, ?_⟩, ?_⟩, ?_, ?_⟩
  · show s.textStart ≤ s.nextChar - 1
    omega
  · intro hv
    show s.nextChar - 1 ≤ s.bufferLimit
    have := h3 hv
    omega
  · rcases hty with rfl | rfl <;> simp [setTtype, push, setWorld]
  · rcases hty with rfl | rfl <;> simp [setTtype, push, setWorld]
  · exact Nat.le_trans (work_pushBack hk hno h1 h3) hle
  · rcases hty with rfl | rfl <;> rfl
  · show s.textStart < s.nextChar - 1
    omega

/-- A key split at its colon leaves a value. -/
theorem returns_splitKey (h : Ready cfg w s) (hk : s.ttype = .key ∨ s.ttype = .tkey)
    (hp : s.textStart < s.nextChar) :
    Returns (splitKey cfg) s fun _ s' => Ready cfg w s' ∧ s'.ttype.startsValue ∧
      s'.textStart < s'.nextChar := by
  rw [Returns, splitKey, post_bind, post_read, post_bind]
  refine returns_report.imp fun _ s' hs => ?_
  have hst := hs.sameToken
  exact returns_pushBackColon (h.sameToken hst) (by rw [hst.2.1]; exact hk)
    (by rw [hst.1]; exact hp)

theorem returns_splitKeyAtColon (h : Ready cfg w s) (hk : s.ttype = .key ∨ s.ttype = .tkey)
    (hp : s.textStart < s.nextChar) :
    Returns (splitKeyAtColon cfg) s fun _ s' => Ready cfg w s' ∧ s'.ttype.startsValue ∧
      s'.textStart < s'.nextChar := by
  rw [Returns, splitKeyAtColon, post_bind, post_read, post_bind]
  refine returns_report.imp fun _ s' hs => ?_
  have hst := hs.sameToken
  exact returns_pushBackColon (h.sameToken hst) (by rw [hst.2.1]; exact hk)
    (by rw [hst.1]; exact hp)

variable {k : Nat} {self : Parse σ Value}

/-- A value parser that uses up its value whenever there is less than `k` to do. -/
def ParsesValue (cfg : Config σ) (k : Nat) (self : Parse σ Value) : Prop :=
  ∀ w s, w < k → Ready cfg w s → Returns self s fun _ s' => Spent cfg w s'

theorem returns_parseListElement (hcfg : cfg.Legal) (hself : ParsesValue cfg k self)
    (list : List Value) (h : Ready cfg w s) (hw : w < k) :
    Returns (parseListElement cfg self list) s
      (Round (fun _ s' => Spent cfg w s') (fun _ s' => Ready cfg w s')) := by
  rw [Returns, parseListElement, post_bind]
  refine (returns_nextToken hcfg h).imp ?_
  rintro _ s₁ ⟨h₁, hend⟩
  rw [post_bind, post_read]
  have hvalue : ∀ s₂, Ready cfg w s₂ → Returns (do return .inl (list ++ [← self])) s₂
      (Round (fun _ s' => Spent cfg w s') (fun (_ : List Value) s' => Ready cfg w s')) := by
    intro s₂ h₂
    exact post_bind.mpr (hself w s₂ hw h₂)
  have hpending : s₁.ttype ≠ .end_ → s₁.textStart < s₁.nextChar := fun hne => hend.resolve_left hne
  have hkey : (s₁.ttype = .key ∨ s₁.ttype = .tkey) → Returns (do
      splitKey cfg
      return .inl (list ++ [← self])) s₁
      (Round (fun _ s' => Spent cfg w s') (fun (_ : List Value) s' => Ready cfg w s')) := by
    intro hk
    refine post_bind.mpr ((returns_splitKey h₁ hk (hpending ?_)).imp fun _ s₂ h₂ => hvalue s₂ h₂.1)
    rcases hk with hk | hk <;> simp [hk]
  split
  · rename_i ht
    exact hkey (Or.inr ht)
  · rename_i ht
    exact hkey (Or.inl ht)
  · exact hvalue s₁ h₁
  · exact hvalue s₁ h₁
  · exact hvalue s₁ h₁
  · exact hvalue s₁ h₁
  · exact hvalue s₁ h₁
  · rename_i ht
    exact (h₁.consume (hpending (by simp [ht]))).ready
  · rw [post_bind]
    exact (returns_reportToken (by decide)).imp fun _ s₂ h₂ => h₁.sameToken h₂

theorem returns_parseList (hcfg : cfg.Legal) (hself : ParsesValue cfg k self) (h : Ready cfg w s)
    (hw : w < k) : Returns (parseList cfg self) s fun _ s' => Ready cfg w s' := by
  rw [Returns, parseList, post_bind]
  exact returns_tokenLoop h fun list w' s' hw' h' =>
    returns_parseListElement hcfg hself list h' (Nat.lt_of_le_of_lt hw' hw)

/-- The tail of an unquoted key given back to the input is no more than the token had to give. -/
theorem Ready.trim {n : Nat} {t : TokenType} {m : Nat} (hv : 2 ≤ cfg.cifVersion) (h : Ready cfg w s)
    (hp : s.textStart < s.nextChar) (hn : 0 < n) (hle : n ≤ s.nextChar - s.textStart) :
    Spent cfg w
      ({ s.trimToken n with tvalueLength := m, ttype := t } : Scanner σ).consumeToken := by
  have h1 := h.1.kept hv
  have h2 := h.2
  have htable : cfg.cifVersion < 2 → t ≠ .otable := fun hlt => by omega
  refine ⟨tokenInv_consumed (fun _ => ?_) htable, ?_⟩
  · show s.textStart + n ≤ s.bufferLimit
    omega
  · rw [work_consumed]
    have h3 : ({ s.trimToken n with tvalueLength := m, ttype := t } : Scanner σ).remaining =
        s.bufferLimit - (s.textStart + n) + s.unread := rfl
    rw [h3]
    simp only [work, tokenWeight, remaining] at h2
    rw [if_neg (by omega), if_pos hv] at h2
    omega

theorem length_tvalue (s : Scanner σ) : s.tvalue.length = s.tvalueLength := by
  simp [tvalue, Buffer.slice]

theorem returns_bareKey (hv : 2 ≤ cfg.cifVersion) (h : Ready cfg w s)
    (hp : s.textStart < s.nextChar) (ht : s.ttype = .value) :
    Returns (bareKey cfg) s fun _ s' => Spent cfg w s' := by
  rw [Returns, bareKey, post_bind, post_read]
  have hlen := h.1.value ht hp
  split
  · rename_i hcolon
    rw [post_bind]
    refine (returns_reportToken (by decide)).imp fun _ s₁ h₁ => ?_
    have hr := h.sameToken h₁
    have hp₁ : s₁.textStart < s₁.nextChar := by
      rw [h₁.1]
      exact hp
    rw [post_bind, post_when]
    refine ⟨fun _ => ?_, fun _ => hr.consume hp₁⟩
    exact hr.trim (n := 1) hv hp₁ Nat.one_pos (by omega)
  · split
    · rename_i i hi
      have hi' := (List.findIdx?_eq_some_iff_getElem.mp hi).1
      rw [List.length_tail, length_tvalue] at hi'
      rw [post_bind]
      refine (returns_reportToken (by decide)).imp fun _ s₁ h₁ => ?_
      have hr := h.sameToken h₁
      have hp₁ : s₁.textStart < s₁.nextChar := by
        rw [h₁.1]
        exact hp
      have hle : i + 2 ≤ s₁.nextChar - s₁.textStart := by
        rw [h₁.1]
        omega
      exact hr.trim (n := i + 2) (t := .key) (m := i + 1) hv hp₁ (by omega) hle
    · rw [post_bind]
      refine (returns_reportToken (by decide)).imp fun _ s₁ h₁ => ?_
      refine (h.sameToken h₁).consume ?_
      rw [h₁.1]
      exact hp

/-- A key or what stands for one uses up a token, unless it is the end of the table. -/
theorem returns_parseTableKey (hcfg : cfg.Legal) (hv : 2 ≤ cfg.cifVersion)
    (hself : ParsesValue cfg k self) (h : Ready cfg w s) (hw : w < k) :
    Returns (parseTableKey cfg self) s fun key s' => match key with
      | .endOfTable => Ready cfg w s'
      | _ => Spent cfg w s' := by
  rw [Returns, parseTableKey, post_bind]
  refine (returns_nextToken hcfg h).imp ?_
  rintro _ s₁ ⟨h₁, hend⟩
  rw [post_bind, post_read]
  have hpending : s₁.ttype ≠ .end_ → s₁.textStart < s₁.nextChar := fun hne => hend.resolve_left hne
  have hmissing : Returns (do
      reportToken cfg Code.missingKey
      let _ ← self
      return TableKey.dropped) s₁ fun key s' => match key with
      | .endOfTable => Ready cfg w s'
      | _ => Spent cfg w s' := by
    refine post_bind.mpr ((returns_reportToken (by decide)).imp fun _ s₂ h₂ => ?_)
    exact post_bind.mpr (hself w s₂ hw (h₁.sameToken h₂))
  split
  · rename_i ht
    refine (returns_bareKey hv h₁ (hpending (by simp [ht])) ht).imp fun key s₂ h₂ => ?_
    cases key
    · exact h₂
    · exact h₂
    · exact h₂.ready
  · rename_i ht
    exact h₁.consume (hpending (by simp [ht]))
  · rename_i ht
    rw [post_bind]
    refine (returns_reportToken (by decide)).imp fun _ s₂ h₂ => ?_
    refine (h₁.sameToken h₂).consume ?_
    rw [h₂.1]
    exact hpending (by simp [ht])
  · exact hmissing
  · exact hmissing
  · exact hmissing
  · exact hmissing
  · rename_i ht
    exact (h₁.consume (hpending (by simp [ht]))).ready
  · rw [post_bind]
    exact Returns.imp (inertCalls.stores.keeps_reportBefore (by decide) s₁) fun _ s₂ h₂ =>
      h₁.sameToken h₂

theorem returns_parseTableValue (hcfg : cfg.Legal) (hself : ParsesValue cfg k self)
    (h : Ready cfg w s) (hw : w < k) :
    Returns (parseTableValue cfg self) s fun _ s' => Ready cfg w s' := by
  rw [Returns, parseTableValue, post_bind]
  refine (returns_nextToken hcfg h).imp ?_
  rintro _ s₁ ⟨h₁, _⟩
  rw [post_bind, post_read]
  split
  · exact (hself w s₁ hw h₁).imp fun _ _ h₂ => h₂.ready
  · rw [post_bind]
    exact (returns_reportToken (by decide)).imp fun _ s₂ h₂ => h₁.sameToken h₂

theorem returns_parseTable (hcfg : cfg.Legal) (hv : 2 ≤ cfg.cifVersion)
    (hself : ParsesValue cfg k self) (h : Ready cfg w s) (hw : w < k) :
    Returns (parseTable cfg self) s fun _ s' => Ready cfg w s' := by
  rw [Returns, parseTable, post_bind]
  refine returns_tokenLoop h fun entries w' s' hw' h' => ?_
  have hwk := Nat.lt_of_le_of_lt hw' hw
  rw [Returns, parseTableEntry, post_bind]
  refine (returns_parseTableKey hcfg hv hself h' hwk).imp ?_
  have hvalue : ∀ s₁, Spent cfg w' s₁ →
      Returns (parseTableValue cfg self) s₁ fun _ s₂ => Spent cfg w' s₂ := by
    intro s₁ h₁
    refine (returns_parseTableValue hcfg hself h₁.self ?_).imp fun _ _ h₂ => h₂.spent h₁.2
    exact Nat.lt_trans h₁.2 hwk
  rintro ((_ | key) | _ | _) s₁ h₁
  · exact post_bind.mpr (hvalue s₁ h₁)
  · refine post_bind.mpr (Returns.imp (inertCalls.stores.keeps_setItemByKey key s₁)
      fun norm s₂ h₂ => ?_)
    exact post_bind.mpr (hvalue s₂ (h₁.sameToken h₂))
  · exact h₁
  · exact h₁

theorem returns_parseValueBody (hcfg : cfg.Legal) (hself : ParsesValue cfg k self)
    (h : Ready cfg w s) (hw : w < k + 1) :
    Returns (parseValueBody cfg self) s fun _ s' => Spent cfg w s' := by
  rw [Returns, parseValueBody, post_bind]
  refine (returns_nextToken hcfg h).imp ?_
  rintro _ s₁ ⟨h₁, hend⟩
  rw [post_bind, post_read]
  have hpending : s₁.ttype ≠ .end_ → s₁.textStart < s₁.nextChar := fun hne => hend.resolve_left hne
  split
  · rename_i ht
    have hc := h₁.consume (hpending (by simp [ht]))
    refine post_bind.mpr ((returns_parseList hcfg hself hc.self ?_).imp fun _ _ h₂ => h₂.spent hc.2)
    exact Nat.lt_of_lt_of_le hc.2 (Nat.le_of_lt_succ hw)
  · rename_i ht
    have hc := h₁.consume (hpending (by simp [ht]))
    have hv : 2 ≤ cfg.cifVersion := by
      by_contra hv
      exact h₁.1.table (by omega) ht
    refine post_bind.mpr ((returns_parseTable hcfg hv hself hc.self ?_).imp fun _ _ h₂ =>
      h₂.spent hc.2)
    exact Nat.lt_of_lt_of_le hc.2 (Nat.le_of_lt_succ hw)
  · rename_i ht
    exact h₁.consume (hpending (by simp [ht]))
  · rename_i ht
    exact h₁.consume (hpending (by simp [ht]))
  · rename_i ht
    refine post_bind.mpr (Returns.imp (inertCalls.stores.keeps_bareValue s₁) fun _ s₂ h₂ => ?_)
    refine (h₁.sameToken h₂).consume ?_
    rw [h₂.1]
    exact hpending (by simp [ht])
  · trivial

/-- `parse_value` finishes, and uses up a token unless it stops. -/
theorem returns_parseValue (hcfg : cfg.Legal) (h : Ready cfg w s) :
    Returns (parseValue cfg) s fun _ s' => Spent cfg w s' := by
  have hfix : Returns (parseValue cfg) s
      fun _ s' => Spent cfg (work cfg.cifVersion s.ttype s.toBuffer) s' := by
    refine Halts.fix (P := fun (_ : Unit) s' =>
      Ready cfg (work cfg.cifVersion s'.ttype s'.toBuffer) s')
      (Q := fun _ s' _ t => Spent cfg (work cfg.cifVersion s'.ttype s'.toBuffer) t)
      (E := fun _ _ _ _ => True)
      (fun _ s' => work cfg.cifVersion s'.ttype s'.toBuffer) ?_ h.self (work_lt_tokenBound h)
    intro k self hself _ s' hs' hk
    refine returns_parseValueBody hcfg (k := k) ?_ hs' hk
    intro w₁ s₁ hw₁ hs₁
    refine Returns.imp (hself () s₁ hs₁.self (Nat.lt_of_le_of_lt hs₁.2 hw₁)) fun _ s₂ h₂ => ?_
    exact ⟨h₂.1, Nat.lt_of_lt_of_le h₂.2 hs₁.2⟩
  refine Returns.imp hfix fun _ s' h' => ⟨h'.1, ?_⟩
  exact Nat.lt_of_lt_of_le h'.2 h.2

end Values

section Items

theorem returns_parseItemValue (hcfg : cfg.Legal) (h : Ready cfg w s)
    (hend : s.ttype = .end_ ∨ s.textStart < s.nextChar) :
    Returns (parseItemValue cfg) s fun _ s' => Ready cfg w s'
      ∧ (s.ttype.startsValue → Spent cfg w s') := by
  rw [Returns, parseItemValue, post_bind, post_read]
  have hpending : s.ttype ≠ .end_ → s.textStart < s.nextChar := fun hne => hend.resolve_left hne
  have hvalue : ∀ s₁, Ready cfg w s₁ → Returns (parseValue cfg) s₁
      fun _ s' => Ready cfg w s' ∧ (s.ttype.startsValue → Spent cfg w s') := by
    intro s₁ h₁
    exact (returns_parseValue hcfg h₁).imp fun _ _ h₂ => ⟨h₂.ready, fun _ => h₂⟩
  have hkey : (s.ttype = .key ∨ s.ttype = .tkey) → Returns (do
      splitKeyAtColon cfg
      parseValue cfg) s fun _ s' => Ready cfg w s' ∧ (s.ttype.startsValue → Spent cfg w s') := by
    intro hk
    refine post_bind.mpr ((returns_splitKeyAtColon h hk (hpending ?_)).imp fun _ s₂ h₂ =>
      hvalue s₂ h₂.1)
    rcases hk with hk | hk <;> simp [hk]
  split
  · rename_i ht
    exact hkey (Or.inr ht)
  · rename_i ht
    exact hkey (Or.inl ht)
  · exact hvalue s h
  · exact hvalue s h
  · exact hvalue s h
  · exact hvalue s h
  · exact hvalue s h
  · rename_i h1 h2 h3 h4 h5 h6 h7
    rw [post_bind]
    refine (returns_reportToken (by decide)).imp fun _ s₂ h₂ => ⟨h.sameToken h₂, fun hv => ?_⟩
    cases ht : s.ttype <;> simp_all [TokenType.startsValue]

/-- `parse_item` gives nothing back, and uses up a value that is there for it. -/
theorem returns_parseItem (hcfg : cfg.Legal) (hends : ∀ value, cfg.props value ≠ none)
    (container : Option Container) (name : Option UStr) (h : Ready cfg w s) :
    Returns (parseItem cfg container name) s fun _ s' => Ready cfg w s' ∧
      (s.textStart < s.nextChar → s.ttype.startsValue → Spent cfg w s') := by
  rw [Returns, parseItem, post_bind]
  refine (returns_nextToken_same hcfg h).imp ?_
  rintro _ s₁ ⟨h₁, hend, hsame⟩
  rw [post_ensure, post_bind, post_modify, post_bind]
  refine (returns_parseItemValue hcfg (s := s₁.deepenSkip) h₁ hend).imp ?_
  rintro value s₂ ⟨h₂, hspent⟩
  have hrecord : ∀ {m : Parse σ Unit}, Inert m → Returns m s₂ fun _ s' => Ready cfg w s' ∧
      (s.textStart < s.nextChar → s.ttype.startsValue → Spent cfg w s') := by
    intro m hm
    refine Returns.imp (hm s₂) fun _ s₃ h₃ => ⟨h₂.sameToken h₃, fun hp hv => ?_⟩
    have hs : Spent cfg w s₂ := hspent (by
      show s₁.ttype.startsValue
      rw [hsame hp]
      exact hv)
    exact hs.sameToken h₃
  split
  · exact hrecord ((inertRecording (.inr hends)).keeps_recordItem _ _ _)
  · exact hrecord (.pure _)

variable {container : Option Container}

theorem returns_parseLoopHeader (hcfg : cfg.Legal) (h : Ready cfg w s) :
    Returns (parseLoopHeader cfg container) s fun _ s' => Ready cfg w s' := by
  refine returns_tokenLoop h fun names w' s' _ h' => ?_
  rw [Returns, parseLoopName, post_bind]
  refine (returns_nextToken hcfg h').imp ?_
  rintro _ s₁ ⟨h₁, hend⟩
  rw [post_bind, post_read]
  split
  · rename_i ht
    have hp : s₁.textStart < s₁.nextChar := hend.resolve_left (by simp [ht])
    have hcons : ∀ s₂, SameToken s₁ s₂ → Spent cfg w' s₂.consumeToken := by
      intro s₂ h₂
      refine (h₁.sameToken h₂).consume ?_
      rw [h₂.1]
      exact hp
    have hname : Inert (when (s₁.skipDepth = 0)
        (syntaxCallback cfg .dataname s₁.line s₁.column s₁.tvalue)) :=
      .when fun _ => inertCalls.stores.keeps_element _ _ _ _
    refine post_bind.mpr (Returns.imp (hname s₁) fun _ s₂ h₂ => ?_)
    refine post_bind.mpr (Returns.imp (inertCalls.stores.keeps_hasItem container _ s₂)
      fun dup s₃ h₃ => ?_)
    have h₁₃ := inert.trans h₂ h₃
    split
    · refine post_bind.mpr ((returns_reportToken (by decide)).imp fun _ s₄ h₄ => ?_)
      exact hcons s₄ (inert.trans h₁₃ h₄)
    · exact hcons s₃ h₁₃
  · exact h₁

/-- A token of a body is left to be read as a value, dropped, or left to what follows the body. -/
theorem returns_loopToken (hcfg : cfg.Legal) (h : Ready cfg w s) :
    Returns (loopToken cfg) s fun token s' => match token with
      | .dropped => Spent cfg w s'
      | _ => Ready cfg w s' := by
  rw [Returns, loopToken, post_bind]
  refine (returns_nextToken hcfg h).imp ?_
  rintro _ s₁ ⟨h₁, hend⟩
  rw [post_bind, post_read]
  have hpending : s₁.ttype ≠ .end_ → s₁.textStart < s₁.nextChar := fun hne => hend.resolve_left hne
  have hkey : (s₁.ttype = .key ∨ s₁.ttype = .tkey) → Returns (do
      splitKey cfg
      pure LoopToken.value) s₁ fun token s' => match token with
      | .dropped => Spent cfg w s'
      | _ => Ready cfg w s' := by
    intro hk
    refine post_bind.mpr ((returns_splitKey h₁ hk (hpending ?_)).imp fun _ s₂ h₂ => h₂.1)
    rcases hk with hk | hk <;> simp [hk]
  have hdelim : s₁.ttype ≠ .end_ → Returns (do
      reportToken cfg Code.unexpectedDelim
      modify consumeToken
      pure LoopToken.dropped) s₁ fun token s' => match token with
      | .dropped => Spent cfg w s'
      | _ => Ready cfg w s' := by
    intro hne
    refine post_bind.mpr ((returns_reportToken (by decide)).imp fun _ s₂ h₂ => ?_)
    refine (h₁.sameToken h₂).consume ?_
    rw [h₂.1]
    exact hpending hne
  split
  · rename_i ht
    exact hkey (Or.inr ht)
  · rename_i ht
    exact hkey (Or.inl ht)
  · exact h₁
  · exact h₁
  · exact h₁
  · exact h₁
  · exact h₁
  · rename_i ht
    exact hdelim (by simp [ht])
  · rename_i ht
    exact hdelim (by simp [ht])
  · exact h₁

theorem returns_packetItem (hcfg : cfg.Legal) (header : List (Option UStr)) (st : PacketState)
    (h : Ready cfg w s) : Returns (packetItem cfg header st) s fun _ s' => Spent cfg w s' := by
  have hstart : Inert (when (st.columnIndex = 0) (startPacket cfg)) :=
    .when fun _ => inertCalls.keeps_startPacket
  rw [Returns, packetItem, post_bind]
  refine Returns.imp (hstart s) fun _ s₁ h₁ => ?_
  rw [post_bind]
  refine (returns_parseValue hcfg (h.sameToken h₁)).imp fun value s₂ h₂ => ?_
  exact Returns.imp (inertCalls.keeps_handlePacketItem _ value s₂) fun value s₃ h₃ =>
    h₂.sameToken h₃

/-- A round of a body uses up a token unless it is the last, if the packets it comes to be recorded
can be. -/
theorem returns_parseLoopToken (hcfg : cfg.Legal) {loop : Option Loop} {header : List (Option UStr)}
    {columns : List (Option Nat)} {st : PacketState} (h : Ready cfg w s)
    (hput : ∀ s₁ value s₂, loopToken cfg s = some (.ok .value, s₁) →
      packetItem cfg header st s₁ = some (.ok value, s₂) →
      Returns (putValue cfg loop header columns st value) s₂ fun _ t => SameToken s₂ t)
    (hend : ∀ s₁, loopToken cfg s = some (.ok .finish, s₁) →
      Returns (endLoopBody cfg loop (header.filterMap id) columns st) s₁ fun _ t =>
        SameToken s₁ t) :
    Returns (parseLoopToken cfg loop header columns st) s
      (Round (fun _ s' => Spent cfg w s') (fun _ s' => Ready cfg w s')) := by
  rw [parseLoopToken_eq, Returns, post_bind]
  refine (Post.run (returns_loopToken hcfg h)).imp ?_ fun _ _ _ => trivial
  rintro token s₁ ⟨htoken, h₁⟩
  cases token with
  | value =>
    rw [post_map, parsePacketValue_eq, post_bind]
    refine (Post.run (returns_packetItem hcfg header st h₁)).imp ?_ fun _ _ _ => trivial
    rintro value s₂ ⟨hitem, h₂⟩
    exact (hput s₁ value s₂ htoken hitem).imp fun _ t ht => h₂.sameToken ht
  | dropped => exact h₁
  | finish =>
    rw [post_map]
    exact (hend s₁ htoken).imp fun _ t ht => h₁.sameToken ht

theorem returns_parseLoopPackets (hcfg : cfg.Legal) (hends : ∀ value, cfg.props value ≠ none)
    (loop : Option Loop) (header : List (Option UStr)) (h : Ready cfg w s) :
    Returns (parseLoopPackets cfg loop header) s fun _ s' => Ready cfg w s' := by
  have hcalls : ToleratesCalls cfg False inert := inertCalls
  have hstart : ∀ names : List UStr, Inert (storeCall (.createPacket names)
      fun cif => (Packet.create cfg.icu names, cif)) := fun _ => hcalls.stores.keeps_store rfl _
  have hput : ∀ columns st value, Inert (putValue cfg loop header columns st value) := fun _ _ _ =>
    .ite (fun _ => .bind ((inertRecording (.inr hends)).keeps_endPacket _ _) fun _ => .pure _)
      fun _ =>
      .pure _
  rw [Returns, parseLoopPackets, post_bind]
  refine Returns.imp (hstart _ s) fun r s₁ h₁ => ?_
  rw [post_bind]
  refine Returns.imp (hcalls.stores.keeps_ofResult r s₁) fun packet s₂ h₂ => ?_
  rw [post_bind]
  refine Returns.imp (hcalls.stores.keeps_ofResult _ s₂) fun columns s₃ h₃ => ?_
  have hr := h.sameToken (inert.trans h₁ (inert.trans h₂ h₃))
  refine returns_tokenLoop hr fun st w' s' _ h' => ?_
  refine returns_parseLoopToken hcfg h' (fun _ value s₂ _ _ => hput columns st value s₂) fun s₁ _ =>
    ?_
  exact (inertRecording (.inr hends)).keeps_endLoopBody _ _ _ _ s₁

theorem returns_parseLoop (hcfg : cfg.Legal) (hends : ∀ value, cfg.props value ≠ none)
    (h : Ready cfg w s) :
    Returns (parseLoop cfg container) s fun _ s' => Ready cfg w s' := by
  rw [Returns, parseLoop, inEntity, post_bind, mark, post_modify, post_bind, post_bind, post_modify,
    post_bind, post_onStop]
  have hcontents : Returns (parseLoopContents cfg container)
      (deepenSkip (push (.enter .loop) s)) fun _ s' => Ready cfg w s' := by
    rw [Returns, parseLoopContents, post_bind]
    refine (returns_parseLoopHeader hcfg (s := deepenSkip (push (.enter .loop) s)) h).imp
      fun header s₁ h₁ => ?_
    split
    · rw [post_bind]
      exact Returns.imp (inertCalls.stores.keeps_reportBefore (by decide) s₁) fun _ s₂ h₂ =>
        h₁.sameToken h₂
    · rw [post_bind]
      refine Returns.imp (inertCalls.keeps_startLoop container _ s₁) fun loop s₂ h₂ => ?_
      rw [post_bind]
      exact (returns_parseLoopPackets hcfg hends loop header (h₁.sameToken h₂)).imp fun _ _ h₃ => h₃
  refine Post.imp hcontents (fun loop s₁ h₁ => ?_) fun _ _ _ => trivial
  refine Returns.imp (inertCalls.keeps_endLoop loop s₁) fun _ s₂ h₂ => ?_
  exact h₁.sameToken h₂

end Items

section Containers

variable {k : Nat} {self : Option Container × Bool → Parse σ Unit} {container : Option Container}
  {isBlock : Bool}

/-- A container parser that gives nothing back whenever there is less than `k` to do. -/
def ParsesContainer (cfg : Config σ) (k : Nat) (self : Option Container × Bool → Parse σ Unit) :
    Prop :=
  ∀ i w s, w < k → Ready cfg w s → Returns (self i) s fun _ s' => Ready cfg w s'

/-- Once its header is consumed a frame leaves less to do. -/
theorem returns_parseFrame (hself : ParsesContainer cfg k self) (i : Option Container × Bool)
    (h : Ready cfg w s) (hw : w < k + 1) (hp : s.textStart < s.nextChar) :
    Returns (do
      modify consumeToken
      self i
      return (.inl () : Unit ⊕ Unit)) s
      (Round (fun _ s' => Spent cfg w s') (fun _ s' => Spent cfg w s')) := by
  have hc := h.consume hp
  refine post_bind.mpr (post_bind.mpr ((hself i _ _ ?_ hc.self).imp fun _ s₂ h₂ => h₂.spent hc.2))
  exact Nat.lt_of_lt_of_le hc.2 (Nat.le_of_lt_succ hw)

/-- A header does not end a block, whatever frames are permitted. -/
theorem returns_frameEndsContainer :
    Returns (frameEndsContainer cfg isBlock) s fun ends s' => SameToken s s' ∧
      (isBlock → ends = false) := by
  rw [Returns, frameEndsContainer]
  split
  · rw [post_bind, post_read, post_bind, post_errorCallback]
    split
    · exact ⟨⟨rfl, rfl, rfl⟩, fun _ => rfl⟩
    · rename_i hb
      split
      · trivial
      · exact ⟨⟨rfl, rfl, rfl⟩, fun h => (hb h).elim⟩
  · split
    · rename_i hb
      rw [post_bind]
      refine (returns_reportToken (by decide)).imp fun _ s₁ h₁ => ⟨h₁, fun h => ?_⟩
      simp [h] at hb
    · exact ⟨⟨rfl, rfl, rfl⟩, fun _ => rfl⟩

theorem returns_parseFrameHead (hself : ParsesContainer cfg k self) (h : Ready cfg w s)
    (hw : w < k + 1) (hp : s.textStart < s.nextChar) :
    Returns (parseFrameHead cfg self container isBlock) s
      (Round (fun _ s' => Spent cfg w s') (fun _ s' => Ready cfg w s'
        ∧ (isBlock → Spent cfg w s'))) := by
  have hframe : ∀ i s₁, SameToken s s₁ → Returns (do
      modify consumeToken
      self i
      return (.inl () : Unit ⊕ Unit)) s₁
      (Round (fun _ s' => Spent cfg w s') (fun _ s' => Ready cfg w s'
        ∧ (isBlock → Spent cfg w s'))) := by
    intro i s₁ h₁
    refine (returns_parseFrame hself i (h.sameToken h₁) hw (by rw [h₁.1]; exact hp)).imp ?_
    rintro (_ | _) s₂ h₂
    · exact h₂
    · exact ⟨h₂.ready, fun _ => h₂⟩
  rw [Returns, parseFrameHead, post_bind, post_read]
  split
  · rw [post_bind]
    refine returns_frameEndsContainer.imp ?_
    rintro ends s₁ ⟨h₁, hends⟩
    split
    · rename_i he
      refine ⟨h.sameToken h₁, fun hb => ?_⟩
      rw [hends hb] at he
      exact absurd he (by decide)
    · rw [post_bind]
      refine Returns.imp (inertCalls.stores.keeps_createFrame _ _ s₁) fun frame s₂ h₂ => ?_
      exact hframe _ s₂ (inert.trans h₁ h₂)
  · exact hframe _ s (inert.refl s)

theorem returns_parseNamedItem (hcfg : cfg.Legal) (hends : ∀ value, cfg.props value ≠ none)
    (h : Ready cfg w s) (hp : s.textStart < s.nextChar) :
    Returns (parseNamedItem cfg container) s fun _ s' => Spent cfg w s' := by
  have hitem : ∀ name s₁, Spent cfg w s₁ →
      Returns (parseItem cfg container name) s₁ fun _ s' => Spent cfg w s' := by
    intro name s₁ h₁
    exact (returns_parseItem hcfg hends container name h₁.self).imp fun _ _ h₂ => h₂.1.spent h₁.2
  rw [Returns, parseNamedItem, post_bind, post_read]
  split
  · exact hitem none _ (h.consume hp)
  · refine post_bind.mpr (Returns.imp (inertCalls.stores.keeps_element _ _ _ _ s) fun _ s₁ h₁ => ?_)
    have hc : Spent cfg w s₁.consumeToken := (h.sameToken h₁).consume (by rw [h₁.1]; exact hp)
    dsimp only
    rw [post_bind, post_modify, post_bind]
    refine Returns.imp (inertCalls.stores.keeps_hasItem container _ _) fun dup s₂ h₂ => ?_
    have hc := hc.sameToken h₂
    split
    · refine post_bind.mpr ((returns_reportToken (by decide)).imp fun _ s₃ h₃ => ?_)
      exact hitem none s₃ (hc.sameToken h₃)
    · exact hitem _ s₂ hc

/-- A token is there that a block does not leave to what follows it. -/
def Fresh (s : Scanner σ) : Prop :=
  s.textStart < s.nextChar ∧ s.ttype ≠ .blockHead ∧ s.ttype ≠ .end_

theorem returns_parseContainerToken (hcfg : cfg.Legal) (hends : ∀ value, cfg.props value ≠ none)
    (hself : ParsesContainer cfg k self) (h : Ready cfg w s) (hw : w < k + 1) :
    Returns (parseContainerToken cfg self container isBlock) s
      (Round (fun _ s' => Spent cfg w s')
        (fun _ s' => Ready cfg w s' ∧ (isBlock → Fresh s → Spent cfg w s'))) := by
  rw [Returns, parseContainerToken, post_bind]
  refine (returns_nextToken_same hcfg h).imp ?_
  rintro _ s₁ ⟨h₁, hend, hsame⟩
  rw [post_bind, post_read]
  have hpending : s₁.ttype ≠ .end_ → s₁.textStart < s₁.nextChar := fun hne => hend.resolve_left hne
  have hcons : ∀ s₂, SameToken s₁ s₂ → s₁.ttype ≠ .end_ → Spent cfg w s₂.consumeToken := by
    intro s₂ h₂ hne
    refine (h₁.sameToken h₂).consume ?_
    rw [h₂.1]
    exact hpending hne
  have hfresh : (s₁.ttype = .blockHead ∨ s₁.ttype = .end_) → ¬ Fresh s := by
    rintro ht ⟨hp, h2, h3⟩
    rw [hsame hp] at ht
    exact ht.elim h2 h3
  have hstray : ∀ s₂, Ready cfg w s₂ → s₂.ttype.startsValue → s₂.textStart < s₂.nextChar →
      Returns (do
      parseStrayValue cfg container
      return (.inl () : Unit ⊕ Unit)) s₂
      (Round (fun _ s' => Spent cfg w s')
        (fun _ s' => Ready cfg w s' ∧ (isBlock → Fresh s → Spent cfg w s'))) := by
    intro s₂ h₂ hv hp
    rw [Returns, post_bind, parseStrayValue, post_bind, post_read, post_bind]
    refine returns_report.imp fun _ s₃ h₃ => ?_
    have h₃ := h₃.sameToken
    refine (returns_parseItem hcfg hends container none (h₂.sameToken h₃)).imp fun _ s₄ h₄ => ?_
    refine h₄.2 ?_ ?_
    · rw [h₃.1]
      exact hp
    · rw [h₃.2.1]
      exact hv
  have hkey : (s₁.ttype = .key ∨ s₁.ttype = .tkey) → Returns (do
      splitKeyAtColon cfg
      parseStrayValue cfg container
      return (.inl () : Unit ⊕ Unit)) s₁
      (Round (fun _ s' => Spent cfg w s')
        (fun _ s' => Ready cfg w s' ∧ (isBlock → Fresh s → Spent cfg w s'))) := by
    intro hk
    refine post_bind.mpr ((returns_splitKeyAtColon h₁ hk (hpending ?_)).imp ?_)
    · rcases hk with hk | hk <;> simp [hk]
    · rintro _ s₂ ⟨h₂, hv, hp⟩
      exact hstray s₂ h₂ hv hp
  have hdelim : s₁.ttype ≠ .end_ → Returns (do
      reportToken cfg Code.unexpectedDelim
      modify consumeToken
      return (.inl () : Unit ⊕ Unit)) s₁
      (Round (fun _ s' => Spent cfg w s')
        (fun _ s' => Ready cfg w s' ∧ (isBlock → Fresh s → Spent cfg w s'))) := fun hne =>
    post_bind.mpr ((returns_reportToken (by decide)).imp fun _ s₂ h₂ => hcons s₂ h₂ hne)
  split
  · rename_i ht
    have hrep : Inert (when (!isBlock) (reportToken cfg Code.noFrameTerm)) :=
      .when fun _ => inertCalls.stores.keeps_reportToken (by decide)
    refine post_bind.mpr (Returns.imp (hrep s₁) fun _ s₂ h₂ => ?_)
    exact ⟨h₁.sameToken h₂, fun _ hf => (hfresh (Or.inl ht) hf).elim⟩
  · rename_i ht
    refine (returns_parseFrameHead hself h₁ hw (hpending (by simp [ht]))).imp ?_
    rintro (_ | _) s₂ h₂
    · exact h₂
    · exact ⟨h₂.1, fun hb _ => h₂.2 hb⟩
  · rename_i ht
    have hc := hcons s₁ (inert.refl s₁) (by simp [ht])
    rw [post_bind, post_modify]
    split
    · rw [post_bind]
      exact (returns_reportToken (by decide)).imp fun _ s₂ h₂ => hc.sameToken h₂
    · exact ⟨hc.ready, fun _ _ => hc⟩
  · rename_i ht
    have hsyn : Inert (when (s₁.skipDepth = 0)
        (syntaxCallback cfg .keyword s₁.line s₁.column s₁.tvalue)) :=
      .when fun _ => inertCalls.stores.keeps_element _ _ _ _
    refine post_bind.mpr (Returns.imp (hsyn s₁) fun _ s₂ h₂ => ?_)
    have hc := hcons s₂ h₂ (by simp [ht])
    rw [post_bind, post_modify]
    exact post_bind.mpr ((returns_parseLoop hcfg hends hc.self).imp fun _ s₃ h₃ => h₃.spent hc.2)
  · rename_i ht
    exact post_bind.mpr (returns_parseNamedItem hcfg hends h₁ (hpending (by simp [ht])))
  · rename_i ht
    exact hkey (Or.inr ht)
  · rename_i ht
    exact hkey (Or.inl ht)
  · rename_i ht
    exact hstray s₁ h₁ (by simp [ht, TokenType.startsValue]) (hpending (by simp [ht]))
  · rename_i ht
    exact hstray s₁ h₁ (by simp [ht, TokenType.startsValue]) (hpending (by simp [ht]))
  · rename_i ht
    exact hstray s₁ h₁ (by simp [ht, TokenType.startsValue]) (hpending (by simp [ht]))
  · rename_i ht
    exact hstray s₁ h₁ (by simp [ht, TokenType.startsValue]) (hpending (by simp [ht]))
  · rename_i ht
    exact hstray s₁ h₁ (by simp [ht, TokenType.startsValue]) (hpending (by simp [ht]))
  · rename_i ht
    exact hdelim (by simp [ht])
  · rename_i ht
    exact hdelim (by simp [ht])
  · rename_i ht
    have hrep : Inert (when (!isBlock) (report cfg Code.eofInFrame s₁.line s₁.column [])) :=
      .when fun _ => inertCalls.report _ _ _ _ (by decide)
    refine post_bind.mpr (Returns.imp (hrep s₁) fun _ s₂ h₂ => ?_)
    exact ⟨h₁.sameToken h₂, fun _ hf => (hfresh (Or.inr ht) hf).elim⟩
  · trivial

/-- `parse_container` finishes and gives nothing back; a block uses up a token that is there for
it. -/
theorem returns_parseContainerBody (hcfg : cfg.Legal) (hends : ∀ value, cfg.props value ≠ none)
    (hself : ParsesContainer cfg k self) (i : Option Container × Bool) (h : Ready cfg w s)
    (hw : w < k + 1) :
    Returns (parseContainerBody cfg self i) s fun _ s' => Ready cfg w s' ∧
      (i.2 → Fresh s → Spent cfg w s') := by
  obtain ⟨container, isBlock⟩ := i
  rw [Returns, parseContainerBody, inEntity, post_bind, mark, post_modify, post_bind, post_bind,
    post_ensure, post_bind]
  refine Returns.imp (inertCalls.keeps_startContainer container isBlock _) fun _ s₁ h₁ => ?_
  have h₁' : SameToken s s₁ := inert.trans ⟨rfl, rfl, rfl⟩ h₁
  have hr := h.sameToken h₁'
  let I (_ : Unit) (s' : Scanner σ) : Prop := Ready cfg w s' ∧
    (isBlock → Fresh s → Spent cfg w s' ∨ Fresh s')
  have hI : I () s₁ := by
    refine ⟨hr, fun _ hf => Or.inr ?_⟩
    rw [Fresh, h₁'.1, h₁'.2.1]
    exact hf
  have hloop : Returns
      (loop tokenBound (fun _ => parseContainerToken cfg self container isBlock) ()) s₁
      (fun _ s' => Ready cfg w s' ∧ (isBlock → Fresh s → Spent cfg w s')) := by
    refine Halts.loop (I := I) (fun _ s' => work cfg.cifVersion s'.ttype s'.toBuffer) ?_ hI
      (work_lt_tokenBound hr)
    rintro _ s' ⟨hr', hf'⟩
    have hself' := Ready.self hr'
    refine Returns.imp (returns_parseContainerToken hcfg hends hself hself'
      (Nat.lt_of_le_of_lt hr'.2 hw)) ?_
    rintro (_ | _) s'' h''
    · have hs : Spent cfg w s'' := ⟨h''.1, Nat.lt_of_lt_of_le h''.2 hr'.2⟩
      exact ⟨⟨hs.ready, fun _ _ => Or.inl hs⟩, h''.2⟩
    · refine ⟨h''.1.mono hr'.2, fun hb hf => ?_⟩
      rcases hf' hb hf with hs | hf'
      · exact ⟨h''.1.1, Nat.lt_of_le_of_lt h''.1.2 hs.2⟩
      · have hs := h''.2 hb hf'
        exact ⟨hs.1, Nat.lt_of_lt_of_le hs.2 hr'.2⟩
  refine Returns.imp hloop fun _ s₂ h₂ => ?_
  refine Returns.imp (inertCalls.keeps_endContainer container isBlock _) fun _ s₃ h₃ => ?_
  have h₃' : SameToken s₂ s₃ := inert.trans ⟨rfl, rfl, rfl⟩ h₃
  exact ⟨h₂.1.sameToken h₃', fun hb hf => (h₂.2 hb hf).sameToken h₃'⟩

theorem returns_parseContainer (hcfg : cfg.Legal) (hends : ∀ value, cfg.props value ≠ none)
    (i : Option Container × Bool) (h : Ready cfg w s) :
    Returns (parseContainer cfg i) s fun _ s' => Ready cfg w s'
      ∧ (i.2 → Fresh s → Spent cfg w s') := by
  have hfix : Returns (parseContainer cfg i) s fun _ s' =>
      Ready cfg (work cfg.cifVersion s.ttype s.toBuffer) s' ∧
        (i.2 → Fresh s → Spent cfg (work cfg.cifVersion s.ttype s.toBuffer) s') := by
    refine Halts.fix (P := fun _ s' => Ready cfg (work cfg.cifVersion s'.ttype s'.toBuffer) s')
      (Q := fun (i : Option Container × Bool) s' _ t =>
        Ready cfg (work cfg.cifVersion s'.ttype s'.toBuffer) t ∧
        (i.2 → Fresh s' → Spent cfg (work cfg.cifVersion s'.ttype s'.toBuffer) t))
      (E := fun _ _ _ _ => True)
      (fun _ s' => work cfg.cifVersion s'.ttype s'.toBuffer) ?_ h.self (work_lt_tokenBound h)
    intro k self hself i s' hs' hk
    refine returns_parseContainerBody hcfg hends (k := k) ?_ i hs' hk
    intro i w₁ s₁ hw₁ hs₁
    refine Returns.imp (hself i s₁ hs₁.self (Nat.lt_of_le_of_lt hs₁.2 hw₁)) fun _ s₂ h₂ => ?_
    exact h₂.1.mono hs₁.2
  refine Returns.imp hfix fun _ s' h' => ⟨h'.1.mono h.2, fun hb hf => ?_⟩
  exact ⟨(h'.2 hb hf).1, Nat.lt_of_lt_of_le (h'.2 hb hf).2 h.2⟩

theorem returns_parseBlock (hcfg : cfg.Legal) (hends : ∀ value, cfg.props value ≠ none)
    (hasCif : Bool) (h : Ready cfg w s) :
    Returns (parseBlock cfg hasCif) s
      (Round (fun _ s' => Spent cfg w s') (fun _ s' => Ready cfg w s')) := by
  have hcalls : ToleratesCalls cfg False inert := inertCalls
  rw [Returns, parseBlock, post_bind]
  refine (returns_nextToken hcfg h).imp ?_
  rintro _ s₁ ⟨h₁, hend⟩
  rw [post_bind, post_read]
  have hpending : s₁.ttype ≠ .end_ → s₁.textStart < s₁.nextChar := fun hne => hend.resolve_left hne
  split
  · rename_i ht
    have hopen : Inert (openBlock hasCif (createBlock cfg (cstr s₁.tvalue))) :=
      keeps_openBlock hasCif (hcalls.stores.keeps_createBlock _)
    refine post_bind.mpr (Returns.imp (hopen s₁) fun block s₂ h₂ => ?_)
    have hc : Spent cfg w s₂.consumeToken := (h₁.sameToken h₂).consume (by
      rw [h₂.1]
      exact hpending (by simp [ht]))
    rw [post_bind, post_modify]
    exact post_bind.mpr ((returns_parseContainer hcfg hends _ hc.self).imp fun _ s₃ h₃ =>
      h₃.1.spent hc.2)
  · exact h₁
  · rename_i hne hne'
    have hopen : Inert (openBlock hasCif (createAnonymousBlock cfg)) :=
      keeps_openBlock hasCif hcalls.stores.keeps_createAnonymousBlock
    refine post_bind.mpr ((returns_reportToken (by decide)).imp fun _ s₂ h₂ => ?_)
    refine post_bind.mpr (Returns.imp (hopen s₂) fun block s₃ h₃ => ?_)
    have h₁₃ := inert.trans h₂ h₃
    refine post_bind.mpr ((returns_parseContainer hcfg hends (block, true) (h₁.sameToken h₁₃)).imp
      fun _ s₄ h₄ => h₄.2 rfl ?_)
    rw [Fresh, h₁₃.1, h₁₃.2.1]
    exact ⟨hpending hne', hne, hne'⟩

/-- `parse_cif` finishes. -/
theorem returns_parseCif (hcfg : cfg.Legal) (hends : ∀ value, cfg.props value ≠ none)
    (hasCif : Bool) (h : Ready cfg w s) :
    Returns (parseCif cfg hasCif) s fun _ _ => True := by
  have hblocks : ∀ s₁, Ready cfg w s₁ → Returns (parseBlocks cfg hasCif) s₁ fun _ _ => True := by
    intro s₁ h₁
    rw [Returns, parseBlocks, post_bind, post_ensure]
    refine (returns_tokenLoop h₁ fun _ _ _ _ h' => returns_parseBlock hcfg hends hasCif h').imp
      fun _ s₂ _ => ?_
    have hend : Inert (do
        let reply ← handlerCallback cfg .cifEnd
        when (reply.code ≠ Code.ok) (stop reply.code)) :=
      .bind (.update fun _ => ⟨rfl, rfl, rfl⟩) fun _ => .when fun _ => .stop fun _ => trivial
    exact Returns.imp (hend _) fun _ _ _ => trivial
  rw [Returns, parseCif, post_recode, inEntity, post_bind, mark, post_modify, post_bind, post_bind]
  refine Returns.imp (Q := fun _ s₁ => SameToken s s₁) ?_ ?_
  · exact ⟨rfl, rfl, rfl⟩
  · intro reply s₁ h₁
    have hr := h.sameToken h₁
    split
    · rw [post_bind, post_modify]
      exact Returns.imp (hblocks (setSkipDepth 1 s₁) hr) fun _ _ _ => trivial
    · split
      · exact Returns.imp (hblocks s₁ hr) fun _ _ _ => trivial
      · trivial

end Containers

section Whole

/-- The type of the current token stays. -/
def typeKept : Discipline Int (Scanner σ) where
  step := fun s t => t.ttype = s.ttype
  halt := fun _ _ _ => True
  refl := fun _ => rfl
  trans := fun h h' => h'.trans h
  step_halt := fun _ _ => trivial

theorem typeKeptScan : ToleratesScan cfg typeKept where
  edit := fun _ _ h => h.2.2.2
  report := fun _ _ _ _ _ => .bind (.update fun _ => rfl) fun _ => .when fun _ => .stop fun _ =>
    trivial
  element := fun _ _ => rfl
  toUnicodeCallback := keeps_toUnicodeCallback (fun _ _ => trivial) fun _ => .update fun _ => rfl

theorem returns_chooseVersion (hb : Begun s.toBuffer) (c : UChar) :
    Returns (chooseVersion cfg c) s fun cfg' s' => Begun s'.toBuffer ∧ s'.ttype = s.ttype ∧
      cfg'.charClass = cfg.charClass ∧ cfg'.props = cfg.props ∧ 0 < cfg'.cifVersion := by
  rw [Returns, chooseVersion]
  split
  · rename_i hv
    exact ⟨hb, rfl, rfl, rfl, hv⟩
  · rename_i hv
    have hpos : ∀ v : Int, 0 < v → ∀ token, 0 < magicVersion token v := by
      intro v hv token
      unfold magicVersion
      split
      · split
        · decide
        · split
          · decide
          · exact hv
      · exact hv
    have hv' : 0 < if cfg.cifVersion < 0 then -cfg.cifVersion else 1 := by
      split <;> omega
    generalize (if cfg.cifVersion < 0 then -cfg.cifVersion else 1) = v at hv' ⊢
    dsimp only
    split
    · rw [post_bind]
      refine (Post.and (typeKeptScan.keeps_scanTo _ s) (returns_scanTo (v := 0) _ hb)).imp ?_
        fun _ _ _ => trivial
      rintro _ s₁ ⟨ht, hsc⟩
      exact ⟨hsc.begun, ht, rfl, rfl, hpos _ hv' _⟩
    · exact ⟨hb, rfl, rfl, rfl, hv'⟩

theorem returns_parseFrom {extraWs extraEol : List UChar}
    (hcfg : cfg.charClass = charClassV2 extraWs extraEol) (hends : ∀ value, cfg.props value ≠ none)
    (hb : Begun s.toBuffer) (ht : s.ttype = .end_) (hasCif scannedBom : Bool) (c : UChar) :
    Returns (parseFrom cfg hasCif scannedBom c) s fun _ _ => True := by
  rw [Returns, parseFrom, post_bind]
  refine (returns_chooseVersion hb c).imp ?_
  rintro cfg' s₁ ⟨hb₁, ht₁, hclass, hprops, hpos⟩
  have hends' : ∀ value, cfg'.props value ≠ none := hprops ▸ hends
  have hready : ∀ cfg₂ : Config σ, ∃ w,
      Ready cfg₂ w { s₁ with nextChar := s₁.textStart, column := 0 } := by
    intro cfg₂
    have hlt := hb₁.text_lt
    refine ⟨_, ⟨Nat.le_refl _, fun h => absurd h (Nat.lt_irrefl _), fun _ => Nat.le_of_lt hlt,
      fun _ h => absurd h (Nat.lt_irrefl _), fun _ h => absurd h (Nat.lt_irrefl _), fun _ h => ?_⟩,
      Nat.le_refl _⟩
    rw [show ({ s₁ with nextChar := s₁.textStart, column := 0 } : Scanner σ).ttype
      = s₁.ttype from rfl, ht₁, ht] at h
    exact absurd h (by decide)
  rw [post_bind, post_modify]
  split
  · have hbom : Inert (when scannedBom do
        report cfg' Code.disallowedChar 1 0 [(← read).prevUnit]) :=
      .when fun _ => .bind .read fun _ => inertCalls.report _ _ _ _ (by decide)
    refine post_bind.mpr (Returns.imp (hbom _) fun _ s₂ h₂ => ?_)
    obtain ⟨w, hw⟩ := hready cfg'.setV1
    exact returns_parseCif (legal_setV1 (hclass.trans hcfg)) hends' hasCif (hw.sameToken h₂)
  · rename_i hv
    refine post_bind.mpr (returns_when_report.imp fun _ s₂ h₂ => ?_)
    obtain ⟨w, hw⟩ := hready cfg'
    exact returns_parseCif (legal_of_two_le (by omega)) hends' hasCif (hw.sameToken h₂.sameToken)

theorem toUnicode_kept (n : Nat) (s : Scanner σ) : Returns (toUnicode cfg n) s fun _ s' =>
    s'.ttype = s.ttype ∧ s'.textStart = s.textStart ∧ s'.nextChar = s.nextChar := by
  have hscan : ToleratesScan cfg typeKept := typeKeptScan
  refine (Post.and (hscan.keeps_toUnicode n s) (returns_toUnicode n)).imp ?_
    fun _ _ _ => trivial
  rintro _ t ⟨htype, hconverted⟩
  exact ⟨htype, by rw [hconverted.eq], by rw [hconverted.eq]⟩

/-- A first character stands at the start of the buffer. -/
theorem returns_getFirstChar (htext : s.textStart = 0) (hnext : s.nextChar = 0) :
    Returns (getFirstChar cfg) s fun first s' => s'.ttype = s.ttype ∧
      (first → s'.textStart = 0 ∧ s'.nextChar = 0 ∧ 0 < s'.bufferLimit) := by
  have hconvert : ∀ b : Buffer, b.convertFirst.textStart = b.textStart ∧
      b.convertFirst.nextChar = b.nextChar := by
    intro b
    unfold convertFirst
    split
    · dsimp only
      split
      · exact ⟨rfl, rfl⟩
      · split <;> exact ⟨rfl, rfl⟩
    · exact ⟨rfl, rfl⟩
  have hread : ∀ b : Buffer, b.readFirst.2.textStart = b.textStart
      ∧ b.readFirst.2.nextChar = b.nextChar := by
    intro b
    unfold readFirst
    split <;> exact ⟨rfl, rfl⟩
  rw [Returns, getFirstChar, post_bind, post_read, post_bind]
  refine (toUnicode_kept _ s).imp ?_
  rintro passes s₁ ⟨htype₁, htext₁, hnext₁⟩
  obtain ⟨hread₁, hread₂⟩ := hread s₁.toBuffer
  split
  · rw [post_bind, post_update]
    dsimp only
    split
    · exact ⟨htype₁, fun h => absurd h (by decide)⟩
    · split
      · rw [post_bind]
        refine returns_report.imp fun _ s₂ h₂ => ?_
        have hb := h₂.toBuffer
        refine ⟨h₂.sameToken.2.1.trans htype₁, fun _ => ⟨?_, ?_, Nat.succ_pos _⟩⟩
        · show s₂.toBuffer.textStart = 0
          rw [hb]
          exact hread₁.trans (htext₁.trans htext)
        · show s₂.toBuffer.nextChar = 0
          rw [hb]
          exact hread₂.trans (hnext₁.trans hnext)
      · rw [post_bind, post_read, post_bind]
        refine (toUnicode_kept _ _).imp ?_
        rintro passes' s₂ ⟨htype₂, htext₂, hnext₂⟩
        split
        · obtain ⟨hconvert₁, hconvert₂⟩ := hconvert s₂.toBuffer
          exact ⟨htype₂.trans htype₁,
            fun _ => ⟨hconvert₁.trans (htext₂.trans (hread₁.trans (htext₁.trans htext))),
              hconvert₂.trans (hnext₂.trans (hread₂.trans (hnext₁.trans hnext))), Nat.succ_pos _⟩⟩
        · exact ⟨htype₂.trans htype₁, fun h => absurd h (by decide)⟩
  · exact ⟨htype₁, fun h => absurd h (by decide)⟩

theorem returns_cifParseInternal {extraWs extraEol : List UChar}
    (hcfg : cfg.charClass = charClassV2 extraWs extraEol) (hends : ∀ value, cfg.props value ≠ none)
    (hasCif : Bool) (htext : s.textStart = 0) (hnext : s.nextChar = 0) (ht : s.ttype = .end_) :
    Returns (cifParseInternal cfg hasCif) s fun _ _ => True := by
  have hscan : ToleratesScan cfg typeKept := typeKeptScan
  rw [Returns, cifParseInternal, post_bind, post_recode]
  refine Post.imp (returns_getFirstChar htext hnext) ?_ fun _ _ _ => trivial
  rintro first s₁ ⟨ht₁, hpos⟩
  have ht₁ := ht₁.trans ht
  split
  · rename_i hfirst
    obtain ⟨htext, hnext, hlimit⟩ := hpos hfirst
    rw [post_bind, post_read]
    dsimp only
    rw [post_bind, post_modify]
    split
    · rw [post_bind, post_modify, post_bind]
      have hbetween : Between cfg.cifVersion (s₁.advance.consumeToken).toBuffer :=
        ⟨rfl, fun _ => by
          show s₁.nextChar + 1 ≤ s₁.bufferLimit
          omega⟩
      refine (Post.and (hscan.keeps_nextChar _)
        (returns_nextChar hbetween rfl)).imp ?_ fun _ _ _ => trivial
      rintro (_ | c) s₂ ⟨ht₂, h₂⟩
      · trivial
      · exact returns_parseFrom hcfg hends h₂.1.begun (ht₂.trans ht₁) hasCif true c
    · refine returns_parseFrom (s := s₁.advance) hcfg hends ⟨?_, ?_⟩ ht₁ hasCif false _
      · show s₁.textStart ≤ s₁.nextChar + 1
        omega
      · show s₁.textStart < s₁.bufferLimit
        omega
  · trivial

/-- A parse finishes, whatever the input, the options and the callbacks, if the binding of values
does. -/
theorem Config.parse_terminates {extraWs extraEol : List UChar}
    (hcfg : cfg.charClass = charClassV2 extraWs extraEol) (hends : ∀ value, cfg.props value ≠ none)
    (hasCif : Bool) (source : List (List UChar)) (w : World σ)
    (malformed : Nat → Option Malformed) :
    ∃ code s, cfg.parse hasCif source w malformed = some (code, s) := by
  obtain ⟨⟨e | a, s⟩, hrun⟩ := Halts.exists (returns_cifParseInternal hcfg hends hasCif
    (s := Scanner.initial source w malformed) rfl rfl rfl)
  · exact ⟨e, s, by rw [parse, hrun]⟩
  · exact ⟨Code.ok, s, by rw [parse, hrun]⟩

end Whole

end CifApi
