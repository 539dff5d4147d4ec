import CifApi.Store.Consistency

/-! When the loop of scalars keeps its category, and no other loop gets it. -/
namespace CifApi

open Exec

namespace Tables

variable {icu : Icu} {bounded : Prop} {t t' t'' : Tables}

/-- Each loop there is was there before, of scalars or not as now, or is new. -/
def KeepsScalars (t t' : Tables) : Prop :=
  ∀ l' ∈ t'.loop, (∃ l ∈ t.loop, loopKey l = loopKey l'
    ∧ (l.category = some [] ↔ l'.category = some []))
    ∨ ∀ l ∈ t.loop, loopKey l ≠ loopKey l'

/-- A loop of either kind is of the same kind later. -/
def SameScalars (t t' : Tables) : Prop :=
  ∀ l ∈ t.loop, ∀ l' ∈ t'.loop, loopKey l = loopKey l' →
    (l.category = some [] ↔ l'.category = some [])

theorem KeepsScalars.of_subset (h : t'.loop ⊆ t.loop) : t.KeepsScalars t' :=
  fun l' hl' => .inl ⟨l', h hl', rfl, Iff.rfl⟩

theorem KeepsScalars.of_eq (h : t'.loop = t.loop) : t.KeepsScalars t' :=
  .of_subset fun _ hl => h ▸ hl

/-- Loops whose rows are changed in place. -/
theorem KeepsScalars.of_map {f : LoopRow → LoopRow} (hloop : t'.loop = t.loop.map f)
    (hf : ∀ l ∈ t.loop, loopKey (f l) = loopKey l
      ∧ (l.category = some [] ↔ (f l).category = some [])) :
    t.KeepsScalars t' := by
  intro l' hl'
  rw [hloop] at hl'
  obtain ⟨l, hl, rfl⟩ := List.mem_map.mp hl'
  exact .inl ⟨l, hl, (hf l hl).1.symm, (hf l hl).2⟩

theorem KeepsScalars.trans_map (h : t.KeepsScalars t') {f : LoopRow → LoopRow}
    (hloop : t''.loop = t'.loop.map f)
    (hf : ∀ l ∈ t'.loop, loopKey (f l) = loopKey l
      ∧ (l.category = some [] ↔ (f l).category = some [])) :
    t.KeepsScalars t'' := by
  intro l'' hl''
  rw [hloop] at hl''
  obtain ⟨l', hl', rfl⟩ := List.mem_map.mp hl''
  obtain ⟨hkey, hcat⟩ := hf l' hl'
  rcases h l' hl' with ⟨l, hl, hkey', hcat'⟩ | hnew
  · exact .inl ⟨l, hl, hkey'.trans hkey.symm, hcat'.trans hcat⟩
  · exact .inr fun l hl heq => hnew l hl (heq.trans hkey)

theorem KeepsScalars.same (h : t.KeepsScalars t') (hkeyed : Keyed loopKey t.loop) :
    t.SameScalars t' := by
  intro l hl l' hl' hkey
  rcases h l' hl' with ⟨l₀, hl₀, hkey₀, hcat⟩ | hnew
  · have heq : l₀ = l := hkeyed.eq hl₀ hl (hkey₀.trans hkey.symm)
    exact heq ▸ hcat
  · exact absurd hkey (hnew l hl)

theorem SameScalars.symm (h : t.SameScalars t') : t'.SameScalars t :=
  fun l' hl' l hl hkey => (h l hl l' hl' hkey.symm).symm

/-- The kind is kept over a change that gives no number again. -/
theorem SameScalars.trans (hwf : t.WellFormed icu bounded) (h : t.SameScalars t')
    (hext : t.Extends t') (h' : t'.SameScalars t'') (hext' : t'.Extends t'') :
    t.SameScalars t'' := by
  intro l hl l'' hl'' hkey
  by_cases hthere : ∃ l' ∈ t'.loop, loopKey l' = loopKey l
  · obtain ⟨l', hl', hkey'⟩ := hthere
    exact (h l hl l' hl' hkey'.symm).trans (h' l' hl' l'' hl'' (hkey'.trans hkey))
  · refine absurd hkey.symm (Extends.not_reused hwf hext hext' hl ?_ l'' hl'')
    intro l' hl' hkey'
    exact hthere ⟨l', hl', hkey'⟩

end Tables

open Tables (KeepsScalars)

namespace Cif

variable {α : Type} {icu : Icu} {props : ValueProps} {bounded : Prop} {cif : Cif}

theorem Atomic.keepsScalars {r : Except Int α × Cif} (h : Atomic cif r)
    (hok : ∀ a, r.1 = .ok a → KeepsScalars cif.tables r.2.tables) :
    KeepsScalars cif.tables r.2.tables := by
  cases hr : r.1 with
  | ok a => exact hok a hr
  | error e => exact .of_eq (congrArg Tables.loop (h.unchanged e hr))

theorem keepsScalars_of_ok {o : Option (Except Int α × Cif)} (h : Outcome (Atomic cif) o)
    (hok : ∀ a cif', o = some (.ok a, cif') → KeepsScalars cif.tables cif'.tables) :
    Outcome (fun r => KeepsScalars cif.tables r.2.tables) o := by
  rw [outcome_iff]
  rintro ⟨r, cif'⟩ ho
  refine (h.of_some ho).keepsScalars ?_
  rintro a rfl
  exact hok a cif' ho

theorem createBlockInternal_keepsScalars (code : UStr) (lenient : Bool) :
    KeepsScalars cif.tables (cif.createBlockInternal icu code lenient).2.tables := by
  refine (createBlockInternal_atomic code lenient).keepsScalars fun a hok => .of_eq ?_
  unfold createBlockInternal at hok ⊢
  split
  · rfl
  · split
    · rfl
    · rename_i hbegin
      obtain ⟨_, rfl⟩ := beginTx_eq_some.mp hbegin
      simp only
      split <;> rfl

theorem createFrameInternal_keepsScalars (parent : Container) (code : UStr) (lenient : Bool) :
    KeepsScalars cif.tables (cif.createFrameInternal icu parent code lenient).2.tables := by
  refine (createFrameInternal_atomic parent code lenient).keepsScalars fun a hok => .of_eq ?_
  unfold createFrameInternal at hok ⊢
  split
  · rfl
  · split
    · rfl
    · rename_i hbegin
      obtain ⟨_, rfl⟩ := beginTx_eq_some.mp hbegin
      simp only
      split <;> rfl

theorem destroyContainer_keepsScalars (container : Container) :
    KeepsScalars cif.tables (cif.destroyContainer container).2.tables := by
  unfold destroyContainer
  split
  · exact .of_subset fun _ hl => List.mem_of_mem_filter hl
  · exact .of_eq rfl

theorem addLoopItems_loop {container : Container} {loopNum : Nat} {names : List (UStr × UStr)}
    {t t' : Tables} (h : addLoopItems container loopNum names t = some t') : t'.loop = t.loop := by
  induction names generalizing t with
  | nil => rw [Option.some.inj h]
  | cons name names ih =>
    obtain ⟨t₁, hfirst, hrest⟩ := Option.bind_eq_some_iff.mp h
    refine (ih hrest).trans ?_
    unfold addLoopItem at hfirst
    split at hfirst
    · simp at hfirst
    · rw [← Option.some.inj hfirst]

theorem insertLoop_loop {container : Container} {category : Option UStr} {loopNum : Nat}
    {t t' : Tables} (h : insertLoop container category t = .ok (loopNum, t')) :
    t'.loop = t.loop ++ [⟨container.id, loopNum, category, 0⟩] := by
  unfold insertLoop at h
  split at h
  · simp at h
  · split at h
    · simp at h
    · obtain ⟨rfl, rfl⟩ := Prod.mk.inj (Except.ok.inj h)
      rfl

/-- The loop made is numbered anew. -/
theorem createLoopInternal_keepsScalars (h : cif.tables.WellFormed icu bounded)
    (container : Container) (category : Option UStr) (names : List (UStr × UStr)) :
    KeepsScalars cif.tables (cif.createLoopInternal container category names).2.tables := by
  refine (createLoopInternal_atomic container category names).keepsScalars fun a hok => ?_
  unfold createLoopInternal at hok ⊢
  simp only at hok ⊢
  split at hok
  · simp at hok
  · rename_i hins
    split at hok
    · simp at hok
    · rename_i hadd
      rw [commitNesttx_beginNesttx]
      have hloop := (addLoopItems_loop hadd).trans (insertLoop_loop hins)
      have hkeyed := (follows_insertLoop h hins).wellFormed.loops
      rw [insertLoop_loop hins] at hkeyed
      intro l' hl'
      rw [hloop] at hl'
      rcases List.mem_append.mp hl' with hold | hnew
      · exact .inl ⟨l', hold, rfl, Iff.rfl⟩
      · obtain rfl := List.mem_singleton.mp hnew
        exact .inr (hkeyed.of_concat)

theorem createLoop_keepsScalars (h : cif.tables.WellFormed icu bounded) (container : Container)
    (category : Option UStr) (names : List UStr) :
    KeepsScalars cif.tables (cif.createLoop icu container category names).2.tables := by
  unfold createLoop
  split
  · exact .of_eq rfl
  · split
    · exact .of_eq rfl
    · exact createLoopInternal_keepsScalars h _ _ _

theorem destroyLoop_keepsScalars (loop : Loop) :
    KeepsScalars cif.tables (cif.destroyLoop loop).2.tables := by
  unfold destroyLoop
  split
  · exact .of_subset fun _ hl => List.mem_of_mem_filter hl
  · exact .of_eq rfl

/-- Whether setting a category is refused. -/
def Refuses (loop : Loop) (category : Option UStr) : Prop :=
  category = some [] ∨ (category ≠ none ∧ loop.category = some [])

theorem setCategory_of_refuses {loop : Loop} {category : Option UStr} (h : Refuses loop category) :
    cif.setCategory loop category = (.error Code.reservedLoop, loop.category, cif) := by
  unfold setCategory
  simp only
  rw [if_pos]
  rcases h with hcat | ⟨hcat, hloop⟩
  · simp [hcat]
  · simp [hcat, hloop]

theorem setCategory_of_not_refuses {loop : Loop} {category : Option UStr}
    (h : ¬ Refuses loop category) :
    (cif.setCategory loop category).2.2.tables.loop = cif.tables.loop.map fun l =>
      if l.containerId = loop.container.id && l.loopNum = loop.loopNum then { l with category }
        else l := by
  obtain ⟨hcat, hloop⟩ := not_or.mp h
  unfold setCategory
  simp only
  rw [if_neg]
  intro hrefused
  rcases Bool.or_eq_true_iff.mp hrefused with hsome | hsome
  · exact hcat (by simpa using hsome)
  · exact hloop (by simpa using hsome)

/-- The handle is one of the loop of scalars. -/
def IsScalar (loop : Loop) (cif : Cif) : Prop :=
  ∃ l ∈ cif.tables.loop, Tables.loopKey l = (loop.container.id, loop.loopNum) ∧ l.category = some []

/-- The scalars' loop keeps its category where a change to it is refused. -/
theorem setCategory_keepsScalars {loop : Loop} {category : Option UStr}
    (h : cif.IsScalar loop → Refuses loop category) :
    KeepsScalars cif.tables (cif.setCategory loop category).2.2.tables := by
  by_cases hrefuses : Refuses loop category
  · rw [setCategory_of_refuses hrefuses]
    exact .of_eq rfl
  · refine .of_map (setCategory_of_not_refuses hrefuses) ?_
    intro l hl
    split
    · rename_i hself
      refine ⟨rfl, ?_⟩
      constructor
      · intro hcat
        exact absurd (h ⟨l, hl, by simpa [Tables.loopKey] using hself, hcat⟩) hrefuses
      · intro hcat
        exact absurd (.inl hcat) hrefuses
    · exact ⟨rfl, Iff.rfl⟩

/-- A change that the scalars' loop is refused is one that is refused anyway. -/
theorem refuses_of_error {loop : Loop} {category : Option UStr} (hscalar : cif.IsScalar loop)
    (h : (cif.setCategory loop category).1 = .error Code.reservedLoop) : Refuses loop category := by
  obtain ⟨l, hl, hkey, _⟩ := hscalar
  by_contra hrefuses
  obtain ⟨hcat, hloop⟩ := not_or.mp hrefuses
  have hany : (cif.tables.loop.any fun l => l.containerId = loop.container.id
      && l.loopNum = loop.loopNum) = true :=
    List.any_eq_true.mpr ⟨l, hl, by simpa [Tables.loopKey] using hkey⟩
  have hok : (cif.setCategory loop category).1 = .ok () := by
    unfold setCategory
    simp only
    rw [if_neg, if_pos hany]
    intro hrefused
    rcases Bool.or_eq_true_iff.mp hrefused with hsome | hsome
    · exact hcat (by simpa using hsome)
    · exact hloop (by simpa using hsome)
  rw [hok] at h
  simp at h

theorem addItemInternal_loop (loop : Loop) (name nameOrig : UStr) (value : Value) :
    Outcome (fun r => r.2.tables.loop = cif.tables.loop)
      (cif.addItemInternal props loop name nameOrig value) := by
  rw [outcome_iff]
  rintro ⟨_ | changes, cif'⟩ hadd
  · rw [((addItemInternal_atomic loop name nameOrig value).of_some hadd).unchanged _ rfl]
  · obtain ⟨t, hitem, -, -, rfl⟩ := addItemInternal_iff.mp hadd
    unfold addLoopItem at hitem
    split at hitem
    · simp at hitem
    · rw [← Option.some.inj hitem]
      rfl

theorem addItem_loop (loop : Loop) (itemName : UStr) (val : Option Value) :
    Outcome (fun r => r.2.tables.loop = cif.tables.loop)
      (cif.addItem icu props loop itemName val) := by
  unfold addItem
  split
  · exact rfl
  · rw [outcome_map]
    exact addItemInternal_loop ..

theorem insertValues_loop {loop : Loop} {rowNum : Nat} {packet : Packet} {t t' : Tables}
    (h : insertValues props loop rowNum packet t = some (.ok t')) : t'.loop = t.loop := by
  induction packet generalizing t with
  | nil => rw [Except.ok.inj (Option.some.inj h)]
  | cons item packet ih =>
    obtain ⟨-, -, -, hrest⟩ := insertValues_cons_iff.mp h
    exact (ih hrest).trans rfl

/-- The rows of loops are as they were, but for the numbers of their last packets. -/
def SameLoops (t t' : Tables) : Prop :=
  ∃ f : LoopRow → LoopRow, t'.loop = t.loop.map f
    ∧ ∀ l, Tables.loopKey (f l) = Tables.loopKey l ∧ (f l).category = l.category

theorem SameLoops.of_eq {t t' : Tables} (h : t'.loop = t.loop) : SameLoops t t' :=
  ⟨id, by rw [h, List.map_id], fun l => ⟨rfl, rfl⟩⟩

theorem SameLoops.keepsScalars {t t' : Tables} (h : SameLoops t t') : KeepsScalars t t' := by
  obtain ⟨f, hloop, hf⟩ := h
  exact .of_map hloop fun l _ => ⟨(hf l).1, by rw [(hf l).2]⟩

/-- A packet added to a loop counts up the number of its last packet at most. -/
theorem addPacket_loop (loop : Loop) (packet : Packet) :
    Outcome (fun r => SameLoops cif.tables r.2.tables) (cif.addPacket props loop packet) := by
  rw [outcome_iff]
  rintro ⟨_ | _, cif'⟩ hadd
  · exact .of_eq
      (congrArg Tables.loop (((addPacket_atomic loop packet).of_some hadd).unchanged _ rfl))
  · obtain ⟨-, l, -, -, t, hins, rfl⟩ := addPacket_iff.mp hadd
    refine ⟨_, insertValues_loop hins, fun l => ?_⟩
    split <;> exact ⟨rfl, rfl⟩

theorem prune_keepsScalars (container : Container) :
    KeepsScalars cif.tables (cif.prune container).tables :=
  .of_subset fun _ hl => List.mem_of_mem_filter hl

theorem addScalarTo_loop (loop : Loop) (name nameOrig : UStr) (value : Value) :
    Outcome (fun r => SameLoops cif.tables r.2.tables)
      (cif.addScalarTo icu props loop name nameOrig value) := by
  have hadd := @addItemInternal_loop props cif loop name nameOrig value
  unfold addScalarTo
  split
  · trivial
  · rename_i heq
    exact .of_eq (hadd.of_some heq)
  · rename_i cif' heq
    have hsame : cif'.tables.loop = cif.tables.loop := hadd.of_some heq
    split
    · exact .of_eq hsame
    · refine (addPacket_loop ..).imp fun r hr => ?_
      obtain ⟨f, hloop, hf⟩ := hr
      exact ⟨f, by rw [hloop, hsame], hf⟩
  · rename_i heq
    exact .of_eq (hadd.of_some heq)

theorem addScalar_keepsScalars (h : cif.tables.WellFormed icu bounded) (container : Container)
    (name nameOrig : UStr) (value : Value) :
    Outcome (fun r => KeepsScalars cif.tables r.2.tables)
      (cif.addScalar icu props container name nameOrig value) := by
  unfold addScalar
  split
  · exact (addScalarTo_loop ..).imp fun r hr => hr.keepsScalars
  · have hcreated := createLoopInternal_keepsScalars h container (some []) []
    split
    · rename_i heq
      rwa [heq] at hcreated
    · rename_i loop cif' heq
      rw [heq] at hcreated
      refine (addScalarTo_loop ..).imp fun r hr => ?_
      obtain ⟨f, hloop, hf⟩ := hr
      exact hcreated.trans_map hloop fun l _ => ⟨(hf l).1, by rw [(hf l).2]⟩

theorem setValue_keepsScalars (h : cif.tables.WellFormed icu bounded) (container : Container)
    (nameOrig : UStr) (value : Value) : Outcome (fun r => KeepsScalars cif.tables r.2.tables)
      (cif.setValue icu props container nameOrig value) := by
  refine keepsScalars_of_ok (setValue_atomic container nameOrig value) fun a cif' hok => ?_
  obtain ⟨name, -, -, hdone⟩ := setValue_iff.mp hok
  have hbegun : ({ cif with saved := [cif.tables] } : Cif).tables.WellFormed icu bounded := h
  rcases hdone with ⟨changes, done, -, hset, rfl⟩ | ⟨done, -, hadd, rfl⟩
  · obtain ⟨-, -, rfl⟩ := setAllValues_iff.mp hset
    exact .of_eq rfl
  · exact (addScalar_keepsScalars hbegun container name nameOrig value).of_some hadd

theorem removeItem_keepsScalars (container : Container) (itemName : UStr) :
    KeepsScalars cif.tables (cif.removeItem icu container itemName).2.tables := by
  refine (removeItem_atomic container itemName).keepsScalars fun a hok => ?_
  unfold removeItem at hok ⊢
  split at hok
  · simp at hok
  · split at hok
    · simp at hok
    · rename_i hbegin
      obtain ⟨_, rfl⟩ := beginTx_eq_some.mp hbegin
      simp only
      split
      · simp_all
      · split
        · exact .of_subset fun _ hl => List.mem_of_mem_filter hl
        · exact .of_eq rfl

end Cif

namespace PacketIterator

variable {props : ValueProps} {cif : Cif} {it : PacketIterator}

theorem updateValues_loop {packet : Packet} {t t' : Tables}
    (h : it.updateValues props packet t = some (.ok t')) :
    t'.loop = t.loop := by
  induction packet generalizing t with
  | nil => rw [Except.ok.inj (Option.some.inj h)]
  | cons item packet ih =>
    obtain ⟨-, -, -, hrest⟩ := updateValues_cons_iff.mp h
    exact (ih hrest).trans rfl

theorem updatePacket_keepsScalars (packet : Packet) :
    Outcome (fun r => KeepsScalars cif.tables r.2.tables) (it.updatePacket props packet cif) := by
  unfold updatePacket
  split
  · exact .of_eq rfl
  · split
    · exact .of_eq rfl
    · simp only
      split
      · trivial
      · exact .of_eq rfl
      · rename_i hupd
        exact .of_eq (updateValues_loop hupd)

theorem removePacket_keepsScalars : KeepsScalars cif.tables (it.removePacket cif).2.2.tables := by
  unfold removePacket
  split
  · exact .of_eq rfl
  · split
    · exact .of_eq rfl
    · by_cases hscalar : it.loop.category = some []
      · simp only [hscalar, if_true]
        refine .of_map (f := fun l =>
          if l.containerId = it.loop.container.id && l.loopNum = it.loop.loopNum then
            { l with lastRowNum := 0 }
          else l) rfl ?_
        intro l _
        split <;> exact ⟨rfl, Iff.rfl⟩
      · simp only [hscalar, if_false]
        exact .of_eq rfl

end PacketIterator

namespace Session

open Tables (SameScalars)

variable {icu : Icu} {platform : Platform} {bounded : Prop} {s s' : Session}

/-- The call sets the category of a loop by this handle of it. -/
def SetsCategory (s : Session) (op : StoreOp) (loop : Loop) (category : Option UStr) : Prop :=
  op = .setCategory loop category ∨ op = .setOwnCategory category ∧ ∃ it, s.iterator = some it
    ∧ it.loop = loop

/-- What the reserved category demands of a call: each loop stays the scalars' one or not, and one
that is stays as it is when a category is set. -/
structure KeepsReserved (icu : Icu) (platform : Platform) (s : Session) (op : StoreOp) : Prop where
  kept : ∀ r s', s.step icu platform op = some (r, s') → s.cif.tables.SameScalars s'.cif.tables
  refused : ∀ loop category, s.SetsCategory op loop category → s.cif.IsScalar loop →
    s.step icu platform op = some (.error Code.reservedLoop, s)

/-- A category set by a handle of the scalars' loop is the reserved one, or there is one and the
handle has the reserved one. -/
def Heeded (s : Session) (op : StoreOp) : Prop :=
  ∀ loop category, s.SetsCategory op loop category → s.cif.IsScalar loop → Cif.Refuses loop category

theorem onCif_keepsScalars {α : Type} {call : Option (Except Int α × Cif)}
    (h : Outcome (fun r => KeepsScalars s.cif.tables r.2.tables) call) :
    Outcome (fun r => KeepsScalars s.cif.tables r.2.cif.tables) (s.onCif call) := by
  rw [onCif, outcome_map]
  exact h

theorem onIterator_keepsScalars {f : PacketIterator → Option (Except Int Unit × Session)}
    (hf : ∀ it, s.iterator = some it →
      Outcome (fun r => KeepsScalars s.cif.tables r.2.cif.tables) (f it)) :
    Outcome (fun r => KeepsScalars s.cif.tables r.2.cif.tables) (s.onIterator f) := by
  unfold onIterator
  cases hit : s.iterator with
  | none => exact .of_eq rfl
  | some it => exact hf it hit

/-- One call that does not abort. -/
theorem step_keepsScalars
    (h : s.cif.tables.WellFormed icu bounded) {op : StoreOp} (hheeded : s.Heeded op)
    (habort : op ≠ .abort) :
    Outcome (fun r => KeepsScalars s.cif.tables r.2.cif.tables) (s.step icu platform op) := by
  cases op with
  | createBlock code lenient =>
    exact onCif_keepsScalars (Cif.createBlockInternal_keepsScalars code lenient)
  | createFrame parent code lenient =>
    exact onCif_keepsScalars (Cif.createFrameInternal_keepsScalars parent code lenient)
  | destroyContainer container =>
    exact onCif_keepsScalars (Cif.destroyContainer_keepsScalars container)
  | createLoop container category names =>
    exact onCif_keepsScalars (Cif.createLoop_keepsScalars h container category names)
  | destroyLoop loop => exact onCif_keepsScalars (Cif.destroyLoop_keepsScalars loop)
  | setCategory loop category =>
    exact Cif.setCategory_keepsScalars (hheeded loop category (.inl rfl))
  | setOwnCategory category =>
    refine onIterator_keepsScalars fun it hit => ?_
    exact Cif.setCategory_keepsScalars (hheeded it.loop category (.inr ⟨rfl, it, hit, rfl⟩))
  | getNames loop =>
    have hsame := @Cif.getNamesInternal_tables icu s.cif loop false
    exact onCif_keepsScalars (.of_eq (congrArg Tables.loop hsame))
  | addItem loop itemName val =>
    exact onCif_keepsScalars ((Cif.addItem_loop loop itemName val).imp fun r hr => .of_eq hr)
  | addPacket loop packet =>
    exact onCif_keepsScalars ((Cif.addPacket_loop loop packet).imp fun r hr => hr.keepsScalars)
  | getAllLoops container =>
    exact onCif_keepsScalars (.of_eq (congrArg Tables.loop (Cif.getAllLoops_tables container)))
  | prune container => exact Cif.prune_keepsScalars container
  | setValue container name val =>
    exact onCif_keepsScalars (Cif.setValue_keepsScalars h container name val)
  | removeItem container name =>
    exact onCif_keepsScalars (Cif.removeItem_keepsScalars container name)
  | getPackets loop =>
    exact (getPackets_tables loop).imp fun r hr => .of_eq (congrArg Tables.loop hr)
  | nextPacket => exact onIterator_keepsScalars fun it _ => .of_eq rfl
  | updatePacket packet =>
    exact onIterator_keepsScalars fun it _ =>
      onCif_keepsScalars (PacketIterator.updatePacket_keepsScalars packet)
  | removePacket => exact onIterator_keepsScalars fun it _ =>
    PacketIterator.removePacket_keepsScalars
  | close =>
    refine onIterator_keepsScalars fun it _ => ?_
    simp only [PacketIterator.close]
    split <;> exact .of_eq rfl
  | abort => exact absurd rfl habort

/-- The tables and, inside an iteration, those it began with agree on which loops are scalars'. -/
structure Agrees (icu : Icu) (s : Session) : Prop where
  wellFormed : s.WellFormed icu False
  base : ∀ t, s.cif.base = some t → t.Extends s.cif.tables ∧ t.SameScalars s.cif.tables

theorem Agrees.initial : Agrees icu {} where
  wellFormed := WellFormed.initial
  base := by simp [Cif.base]

theorem Agrees.sameScalars (h : s.Agrees icu) {op : StoreOp} (hheeded : s.Heeded op)
    {r : Except Int Unit} (hstep : s.step icu platform op = some (r, s')) :
    s.cif.tables.SameScalars s'.cif.tables := by
  have hkeyed := h.wellFormed.tables.loops
  by_cases habort : op = .abort
  · subst habort
    rcases abort_tables.of_some hstep with heq | heq
    · exact (KeepsScalars.of_eq (congrArg Tables.loop heq)).same hkeyed
    · exact (h.base _ heq).2.symm
  · exact ((step_keepsScalars h.wellFormed.tables hheeded habort).of_some hstep).same hkeyed

theorem Agrees.step (h : s.Agrees icu) {op : StoreOp} (hheeded : s.Heeded op) {r : Except Int Unit}
    (hstep : s.step icu platform op = some (r, s')) : s'.Agrees icu where
  wellFormed := h.wellFormed.step False.elim hstep
  base := by
    intro t ht
    by_cases hend : op.EndsIteration
    · have hnone := (h.wellFormed.base_of_ends hend).of_some hstep
      rw [hnone] at ht
      cases ht
    · have habort : op ≠ .abort := fun heq => hend (.inr heq)
      have hext := ((step_follows h.wellFormed.tables False.elim habort).of_some hstep).extends_
      have hsame := h.sameScalars hheeded hstep
      rcases (step_base hend).of_some hstep with heq | ⟨heq, _⟩
      · rw [heq] at ht
        obtain ⟨hext₀, hsame₀⟩ := h.base t ht
        exact ⟨hext₀.trans hext, hsame₀.trans (h.wellFormed.base t ht).1 hext₀ hsame hext⟩
      · rw [heq] at ht
        obtain rfl := Option.some.inj ht
        exact ⟨hext, hsame⟩

theorem Agrees.run (h : s.Agrees icu) {ops : List StoreOp}
    (hheeded : ∀ before op after s', ops = before ++ op :: after →
      s.run icu platform before = some s' →
      s'.Heeded op) (hrun : s.run icu platform ops = some s') : s'.Agrees icu := by
  induction ops generalizing s with
  | nil =>
    cases hrun
    exact h
  | cons op ops ih =>
    obtain ⟨r, s₁, hstep, hrest⟩ := run_cons.mp hrun
    refine ih (h.step (hheeded [] op ops s rfl rfl) hstep) ?_ hrest
    intro before op' after s'' heq hbefore
    exact hheeded (op :: before) op' after s'' (by rw [heq, List.cons_append])
      (run_cons.mpr ⟨r, s₁, hstep, hbefore⟩)

theorem step_of_refuses {op : StoreOp} {loop : Loop} {category : Option UStr}
    (hsets : s.SetsCategory op loop category) (h : Cif.Refuses loop category) :
    s.step icu platform op = some (.error Code.reservedLoop, s) := by
  rcases hsets with rfl | ⟨rfl, it, hit, rfl⟩
  · simp only [Session.step, Cif.setCategory_of_refuses h]
  · simp only [Session.step, onIterator, hit, Cif.setCategory_of_refuses h]
    rw [← hit]

theorem KeepsReserved.heeded {op : StoreOp} (h : s.KeepsReserved icu platform op) :
    s.Heeded op := by
  intro loop category hsets hscalar
  have hstep := h.refused loop category hsets hscalar
  refine Cif.refuses_of_error hscalar ?_
  rcases hsets with rfl | ⟨rfl, it, hit, rfl⟩
  · simp only [Session.step, Option.some.injEq] at hstep
    exact congrArg Prod.fst hstep
  · simp only [Session.step, onIterator, hit, Option.some.injEq] at hstep
    exact congrArg Prod.fst hstep

/-- The reserved category is kept, over a run, just where no handle drops it or has another. -/
theorem run_keepsReserved_iff (ops : List StoreOp) :
    (∀ before op after s, ops = before ++ op :: after → run icu platform {} before = some s →
        s.KeepsReserved icu platform op)
      ↔ ∀ before op after s, ops = before ++ op :: after → run icu platform {} before = some s →
        s.Heeded op := by
  constructor
  · intro h before op after s heq hrun
    exact (h before op after s heq hrun).heeded
  · intro h before op after s heq hrun
    have hagrees : s.Agrees icu := by
      refine Agrees.initial.run ?_ hrun
      intro first op' second s' heq' hfirst
      exact h first op' (second ++ op :: after) s' (by rw [heq, heq', List.append_assoc,
        List.cons_append]) hfirst
    have hheeded := h before op after s heq hrun
    exact ⟨fun r s' hstep => hagrees.sameScalars hheeded hstep, fun loop category hsets hscalar =>
      step_of_refuses hsets (hheeded loop category hsets hscalar)⟩

/-- No category is taken, by a handle of the scalars' loop, where the reserved one cannot be
changed. -/
theorem run_dropsReserved :
    let block : Container := ⟨1, units "a", units "a", none⟩
    let ops : List StoreOp := [.createBlock (units "a") false, .setValue block (units "_x") .unk]
    let op : StoreOp := .setCategory ⟨block, 0, some []⟩ none
    ∃ s s', run Icu.ascii Platform.exact {} ops = some s
      ∧ s.cif.IsScalar ⟨block, 0, some []⟩ ∧ s.cif.scalarLoop block = .ok ⟨block, 0, some []⟩
      ∧ s.step Icu.ascii Platform.exact op = some (.ok (), s')
      ∧ s'.cif.tables.loop.map (·.category) = [none]
        ∧ ¬ s.KeepsReserved Icu.ascii Platform.exact op := by
  intro block ops op
  have hrun : run Icu.ascii Platform.exact {} ops
      = some (({} : Session).after Icu.ascii Platform.exact ops) :=
    run_after (by decide +kernel)
  generalize hs : ({} : Session).after Icu.ascii Platform.exact ops = s at hrun
  have hscalar : s.cif.IsScalar ⟨block, 0, some []⟩ := by
    rw [← hs]
    exact ⟨⟨1, 0, some [], 1⟩, .head _, rfl, rfl⟩
  have hfound : s.cif.scalarLoop block = .ok ⟨block, 0, some []⟩ := by
    rw [← hs]
    decide +kernel
  have hok : (s.step Icu.ascii Platform.exact op).map (fun r =>
      (r.1, r.2.cif.tables.loop.map (·.category)))
      = some (.ok (), [none]) := by
    rw [← hs]
    decide +kernel
  obtain ⟨⟨r, s'⟩, hstep, hr⟩ := Option.map_eq_some_iff.mp hok
  obtain ⟨rfl, hcategory⟩ := Prod.mk.inj hr
  refine ⟨s, s', hrun, hscalar, hfound, hstep, hcategory, ?_⟩
  intro hkeeps
  have hrefused := hkeeps.refused _ _ (.inl rfl) hscalar
  rw [hrefused] at hstep
  simp at hstep

end Session

end CifApi
