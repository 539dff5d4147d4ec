import CifApi.Store.Invariants

/-! The tables stay consistent over every run that removes no packet by a handle gone stale. -/
namespace CifApi

open Exec
open Tables (Follows)

namespace Cif

variable {α : Type} {icu : Icu} {props : ValueProps} {bounded : Prop} {cif : Cif}

/-- A call that changes nothing when it fails need only be followed where it succeeds. -/
theorem Atomic.follows {r : Except Int α × Cif} (hatomic : Atomic cif r)
    (h : cif.tables.WellFormed icu bounded)
    (hok : ∀ a, r.1 = .ok a → Follows icu bounded cif.tables r.2.tables) :
    Follows icu bounded cif.tables r.2.tables := by
  cases hr : r.1 with
  | ok a => exact hok a hr
  | error e =>
    rw [hatomic.unchanged e hr]
    exact .refl h

theorem normalizeItemName_ok {name key : UStr} {e : Int}
    (h : icu.normalizeItemName name e = .ok key) :
    isValidName name true = true ∧ icu.normalize name = key := by
  unfold Icu.normalizeItemName at h
  split at h
  · rename_i hvalid
    exact ⟨hvalid, Except.ok.inj h⟩
  · simp at h

theorem createBlockInternal_follows (h : cif.tables.WellFormed icu bounded) (code : UStr)
    (lenient : Bool) :
    Follows icu bounded cif.tables (cif.createBlockInternal icu code lenient).2.tables := by
  refine (createBlockInternal_atomic code lenient).follows h ?_
  intro a hok
  unfold createBlockInternal at hok ⊢
  split
  · exact .refl h
  · split
    · exact .refl h
    · rename_i hbegin
      obtain ⟨_, rfl⟩ := beginTx_eq_some.mp hbegin
      simp_all only
      split
      · simp_all
      · refine follows_newContainer h ?_ fun _ hf => .inl hf
        intro b hb
        rcases List.mem_append.mp hb with hold | hnew
        · exact .inl hold
        · obtain rfl := List.mem_singleton.mp hnew
          exact .inr rfl

theorem createFrameInternal_follows (h : cif.tables.WellFormed icu bounded) (parent : Container)
    (code : UStr) (lenient : Bool) :
    Follows icu bounded cif.tables (cif.createFrameInternal icu parent code lenient).2.tables := by
  refine (createFrameInternal_atomic parent code lenient).follows h ?_
  intro a hok
  unfold createFrameInternal at hok ⊢
  split
  · exact .refl h
  · split
    · exact .refl h
    · rename_i hbegin
      obtain ⟨_, rfl⟩ := beginTx_eq_some.mp hbegin
      simp_all only
      split
      · simp_all
      · rename_i hcheck
        simp only [Bool.or_eq_true, not_or, Bool.not_eq_true', Bool.not_eq_false,
          Tables.hasContainer, List.any_eq_true, decide_eq_true_eq] at hcheck
        obtain ⟨c, hc, hid⟩ := hcheck.2
        refine follows_newContainer h (fun _ hb => .inl hb) ?_
        intro f hf
        rcases List.mem_append.mp hf with hold | hnew
        · exact .inl hold
        · obtain rfl := List.mem_singleton.mp hnew
          exact .inr ⟨rfl, hid ▸ h.ids_le c hc⟩

theorem destroyContainer_follows (h : cif.tables.WellFormed icu bounded) (container : Container) :
    Follows icu bounded cif.tables (cif.destroyContainer container).2.tables := by
  unfold destroyContainer
  split
  · exact follows_deleteContainer h container.id
  · exact .refl h

theorem createLoopInternal_follows (h : cif.tables.WellFormed icu bounded) (container : Container)
    (category : Option UStr) {names : List (UStr × UStr)}
    (hnames : ∀ name ∈ names, isValidName name.2 true = true ∧ icu.normalize name.2 = name.1) :
    Follows icu bounded cif.tables (cif.createLoopInternal container category names).2.tables := by
  refine (createLoopInternal_atomic container category names).follows h ?_
  intro a hok
  unfold createLoopInternal at hok ⊢
  simp only at hok ⊢
  split at hok
  · simp at hok
  · rename_i hins
    split at hok
    · simp at hok
    · rename_i hadd
      have hloop := follows_insertLoop h hins
      have hitems := follows_addLoopItems hloop.wellFormed hnames hadd
      simp only [commitNesttx_beginNesttx]
      exact hloop.trans hitems

theorem createLoop_follows (h : cif.tables.WellFormed icu bounded) (container : Container)
    (category : Option UStr) (names : List UStr) :
    Follows icu bounded cif.tables (cif.createLoop icu container category names).2.tables := by
  unfold createLoop
  split
  · exact .refl h
  · split
    · exact .refl h
    · rename_i hmap
      refine createLoopInternal_follows h _ _ ?_
      intro name hmem
      obtain ⟨n, _, hn⟩ := exists_of_mapM_eq_ok hmap hmem
      cases hnorm : icu.normalizeItemName n Code.invalidItemname with
      | error e => simp [hnorm, bind, Except.bind] at hn
      | ok key =>
        obtain rfl : (key, n) = name := by
          simpa [hnorm, bind, Except.bind, pure, Except.pure] using hn
        exact normalizeItemName_ok hnorm

theorem destroyLoop_follows (h : cif.tables.WellFormed icu bounded) (loop : Loop) :
    Follows icu bounded cif.tables (cif.destroyLoop loop).2.tables := by
  unfold destroyLoop
  split
  · exact follows_deleteLoop h _ _
  · exact .refl h

/-- No call makes a loop scalar that was created otherwise. -/
theorem setCategory_follows (h : cif.tables.WellFormed icu bounded) (loop : Loop)
    (category : Option UStr) :
    Follows icu bounded cif.tables (cif.setCategory loop category).2.2.tables := by
  unfold setCategory
  simp only
  split
  · exact .refl h
  · rename_i hreserved
    exact follows_category h loop fun hcat => hreserved (by simp [hcat])

theorem getNamesInternal_tables (loop : Loop) (normalize : Bool) :
    (cif.getNamesInternal icu loop normalize).2.tables = cif.tables := by
  rw [getNamesInternal_snd]
  split <;> rfl

theorem getAllLoops_tables (container : Container) :
    (cif.getAllLoops container).2.tables = cif.tables := by
  have hsnd : (cif.getAllLoops container).2 = if cif.autocommit then cif else cif.beginNesttx :=
    rollbackNesttx_beginNesttx cif.tables
  rw [hsnd]
  split <;> rfl

/-- The same for a call that may not return. -/
theorem follows_of_ok {o : Option (Except Int α × Cif)} (hatomic : Outcome (Atomic cif) o)
    (h : cif.tables.WellFormed icu bounded)
    (hok : ∀ a cif', o = some (.ok a, cif') → Follows icu bounded cif.tables cif'.tables) :
    Outcome (fun r => Follows icu bounded cif.tables r.2.tables) o := by
  rw [outcome_iff]
  rintro ⟨r, cif'⟩ ho
  refine (hatomic.of_some ho).follows h ?_
  rintro a rfl
  exact hok a cif' ho

theorem addItemInternal_follows (h : cif.tables.WellFormed icu bounded) (loop : Loop)
    {name nameOrig : UStr}
    (hname : isValidName nameOrig true = true ∧ icu.normalize nameOrig = name) (value : Value) :
    Outcome (fun r => Follows icu bounded cif.tables r.2.tables)
      (cif.addItemInternal props loop name nameOrig value) := by
  refine follows_of_ok (addItemInternal_atomic loop name nameOrig value) h ?_
  intro changes cif' hok
  obtain ⟨t, hadd, -, -, rfl⟩ := addItemInternal_iff.mp hok
  have hitem := follows_addLoopItem h hname hadd
  exact hitem.trans (follows_setAllValuesSql hitem.wellFormed loop.container name value)

theorem addItem_follows (h : cif.tables.WellFormed icu bounded) (loop : Loop) (itemName : UStr)
    (val : Option Value) : Outcome (fun r => Follows icu bounded cif.tables r.2.tables)
      (cif.addItem icu props loop itemName val) := by
  unfold addItem
  split
  · exact .refl h
  · rename_i hname
    rw [outcome_map]
    exact addItemInternal_follows h _ (normalizeItemName_ok hname) _

/-- The row of a new packet is one more than the last that was given out. -/
theorem addPacket_follows (h : cif.tables.WellFormed icu bounded) (loop : Loop) (packet : Packet) :
    Outcome (fun r => Follows icu bounded cif.tables r.2.tables)
      (cif.addPacket props loop packet) := by
  refine follows_of_ok (addPacket_atomic loop packet) h ?_
  intro a cif' hok
  obtain ⟨-, l, hfind, hscalar, t, hins, rfl⟩ := addPacket_iff.mp hok
  have hl : l ∈ cif.tables.loop := List.mem_of_find?_eq_some hfind
  have hself := List.find?_some hfind
  have hkey : Tables.loopKey l = (loop.container.id, loop.loopNum) := by
    simpa [Tables.loopKey] using hself
  have hbump := follows_bump h hl hkey fun hcat => by
    have hrow := hscalar hcat
    omega
  have hvalues := follows_insertValues hbump.wellFormed
    (l := { l with lastRowNum := l.lastRowNum + 1 })
    (List.mem_map.mpr ⟨l, hl, if_pos hself⟩) hkey (Nat.le_add_left 1 _)
    (fun _ => Nat.le_refl _) hins
  exact hbump.trans hvalues

theorem prune_follows (h : cif.tables.WellFormed icu bounded) (container : Container) :
    Follows icu bounded cif.tables (cif.prune container).tables := follows_prune container h

theorem addScalarTo_follows (h : cif.tables.WellFormed icu bounded) (loop : Loop)
    {name nameOrig : UStr}
    (hname : isValidName nameOrig true = true ∧ icu.normalize nameOrig = name) (value : Value) :
    Outcome (fun r => Follows icu bounded cif.tables r.2.tables)
      (cif.addScalarTo icu props loop name nameOrig value) := by
  have hadd := @addItemInternal_follows icu props bounded cif h loop name nameOrig hname value
  unfold addScalarTo
  split
  · trivial
  · rename_i heq
    exact hadd.of_some heq
  · rename_i heq
    have hitem := hadd.of_some heq
    split
    · exact hitem
    · exact (addPacket_follows hitem.wellFormed _ _).imp fun _ hr => hitem.trans hr
  · rename_i heq
    exact hadd.of_some heq

theorem addScalar_follows (h : cif.tables.WellFormed icu bounded) (container : Container)
    {name nameOrig : UStr}
    (hname : isValidName nameOrig true = true ∧ icu.normalize nameOrig = name) (value : Value) :
    Outcome (fun r => Follows icu bounded cif.tables r.2.tables)
      (cif.addScalar icu props container name nameOrig value) := by
  unfold addScalar
  split
  · exact addScalarTo_follows h _ hname _
  · have hloop :=
      createLoopInternal_follows h container (some []) (fun _ hmem =>
        absurd hmem (List.not_mem_nil))
    split
    · rename_i heq
      rwa [heq] at hloop
    · rename_i heq
      rw [heq] at hloop
      exact (addScalarTo_follows hloop.wellFormed _ hname _).imp fun _ hr => hloop.trans hr

theorem setValue_follows (h : cif.tables.WellFormed icu bounded) (container : Container)
    (nameOrig : UStr) (value : Value) : Outcome (fun r => Follows icu bounded cif.tables r.2.tables)
      (cif.setValue icu props container nameOrig value) := by
  refine follows_of_ok (setValue_atomic container nameOrig value) h ?_
  intro a cif' hok
  obtain ⟨name, hname, hsaved, hdone⟩ := setValue_iff.mp hok
  have hbegun : ({ cif with saved := [cif.tables] } : Cif).tables.WellFormed icu bounded := h
  rcases hdone with ⟨changes, done, -, hset, rfl⟩ | ⟨done, -, hadd, rfl⟩
  · obtain ⟨-, -, rfl⟩ := setAllValues_iff.mp hset
    exact follows_setAllValuesSql h container name value
  · exact (addScalar_follows hbegun container (normalizeItemName_ok hname) value).of_some hadd

theorem removeItem_follows (h : cif.tables.WellFormed icu bounded) (container : Container)
    (itemName : UStr) :
    Follows icu bounded cif.tables (cif.removeItem icu container itemName).2.tables := by
  refine (removeItem_atomic container itemName).follows h ?_
  intro a hok
  unfold removeItem at hok ⊢
  split at hok
  · simp at hok
  · rename_i hname
    split at hok
    · simp at hok
    · rename_i hbegin
      obtain ⟨_, rfl⟩ := beginTx_eq_some.mp hbegin
      simp only
      split
      · simp_all
      · split
        · exact follows_deleteLoop h _ _
        · exact follows_deleteItem h _ _

end Cif

namespace Tables

variable {icu : Icu} {bounded : Prop} {t : Tables}

/-- What the tables are to keep to. -/
structure Consistent (t : Tables) : Prop where
  /-- An item belongs to one loop of its container. -/
  looped : ∀ container : Container, ∀ li ∈ t.loopItem, li.containerId = container.id →
    ∃ l, Cif.itemLoops container li.name t = [l]
  /-- A value belongs to an item. -/
  itemed : ∀ iv ∈ t.itemValue, ∃ li ∈ t.loopItem, li.containerId = iv.containerId
    ∧ li.name = iv.name
  /-- Its row is one that the loop has given out, so that no new packet collides with it. -/
  rows : ∀ loop : Loop, ∀ l ∈ t.loop, loopKey l = (loop.container.id, loop.loopNum) →
    ∀ iv ∈ Cif.loopValues loop t, 1 ≤ iv.rowNum ∧ iv.rowNum ≤ l.lastRowNum
      ∧ iv.rowNum ≠ l.lastRowNum + 1
  /-- A container has one loop of scalars at most. -/
  scalar_loop : ∀ id, (t.loop.filter fun l => l.containerId = id && l.category = some []).length ≤ 1
  /-- That loop has one packet at most. -/
  scalar_packet : ∀ loop : Loop, ∀ l ∈ t.loop, loopKey l = (loop.container.id, loop.loopNum) →
    l.category = some [] → ∀ iv ∈ Cif.loopValues loop t, ∀ iv' ∈ Cif.loopValues loop t,
      iv.rowNum = iv'.rowNum

theorem mem_loopValues {loop : Loop} {iv : ItemValueRow} : iv ∈ Cif.loopValues loop t ↔
    iv ∈ t.itemValue ∧ iv.containerId = loop.container.id
      ∧ ∃ li ∈ t.loopItem, itemKey li = (loop.container.id, iv.name)
      ∧ li.loopNum = loop.loopNum := by
  rw [Cif.loopValues, (List.perm_insertionSort _ _).mem_iff, List.mem_filter]
  simp only [Cif.loopItems, Bool.and_eq_true, decide_eq_true_eq, List.any_eq_true, List.mem_filter,
    itemKey, Prod.mk.injEq]
  constructor
  · rintro ⟨hiv, hcid, li, ⟨hli, hlcid, hnum⟩, hname⟩
    exact ⟨hiv, hcid, li, hli, ⟨hlcid, hname⟩, hnum⟩
  · rintro ⟨hiv, hcid, li, hli, ⟨hlcid, hname⟩, hnum⟩
    exact ⟨hiv, hcid, li, ⟨hli, hlcid, hnum⟩, hname⟩

/-- The values of a loop are in rows that it has given out. -/
theorem WellFormed.row_le (h : t.WellFormed icu bounded) {loop : Loop} {l : LoopRow}
    (hl : l ∈ t.loop) (hkey : loopKey l = (loop.container.id, loop.loopNum)) {iv : ItemValueRow}
    (hiv : iv ∈ Cif.loopValues loop t) : 1 ≤ iv.rowNum ∧ (bounded → iv.rowNum ≤ l.lastRowNum) := by
  obtain ⟨hmem, hcid, li, hli, hikey, hnum⟩ := mem_loopValues.mp hiv
  obtain ⟨li', hli', hikey', l', hl', hlkey, hrange⟩ := h.placed iv hmem
  have hsame : li' = li := h.items.eq hli' hli (hikey'.trans (by rw [hikey, hcid]))
  subst hsame
  have hsame' : l' = l := by
    refine h.loops.eq hl' hl ?_
    rw [hlkey, hkey, hnum, (Prod.mk.inj hikey).1]
  exact hsame' ▸ hrange

theorem filter_eq_singleton {α : Type} {l : List α} {p : α → Bool} (hnodup : l.Nodup) {a : α}
    (ha : a ∈ l) (hp : ∀ b ∈ l, p b = true ↔ b = a) : l.filter p = [a] := by
  have hperm : (l.filter p).Perm [a] := by
    refine (List.perm_ext_iff_of_nodup (hnodup.filter _) (List.nodup_singleton a)).mpr ?_
    intro b
    rw [List.mem_filter, List.mem_singleton]
    constructor
    · exact fun hb => (hp b hb.1).mp hb.2
    · rintro rfl
      exact ⟨ha, (hp b ha).mpr rfl⟩
  exact List.perm_singleton.mp hperm

theorem WellFormed.consistent (h : t.WellFormed icu True) : t.Consistent where
  looped := by
    intro container li hli hcid
    obtain ⟨l, hl, hlkey⟩ := h.looped li hli
    obtain ⟨hlcid, hlnum⟩ := Prod.mk.inj hlkey
    refine ⟨l, filter_eq_singleton h.loops.of_map hl ?_⟩
    intro l' hl'
    simp only [Bool.and_eq_true, decide_eq_true_eq, List.any_eq_true]
    constructor
    · rintro ⟨hcid', li', hli', ⟨hcid'', hname⟩, hnum⟩
      have hsame : li' = li := h.items.eq hli' hli (by simp [itemKey, hcid'', hname, hcid])
      subst hsame
      exact h.loops.eq hl' hl (by rw [hlkey, hcid]; simp [loopKey, hcid', hnum])
    · rintro rfl
      exact ⟨hlcid.trans hcid, li, hli, ⟨hcid, rfl⟩, hlnum.symm⟩
  itemed := by
    intro iv hiv
    obtain ⟨li, hli, hkey, _⟩ := h.placed iv hiv
    obtain ⟨hcid, hname⟩ := Prod.mk.inj hkey
    exact ⟨li, hli, hcid, hname⟩
  rows := by
    intro loop l hl hkey iv hiv
    obtain ⟨hpos, hle⟩ := h.row_le hl hkey hiv
    have hle := hle trivial
    exact ⟨hpos, hle, by omega⟩
  scalar_loop := by
    intro id
    have hnodup : (t.loop.filter fun l => l.containerId = id && l.category = some []).Nodup :=
      h.loops.of_map.filter _
    rcases hf : t.loop.filter fun l => l.containerId = id && l.category = some [] with _
      | ⟨l, _ | ⟨l', rest⟩⟩
    · rw [hf]
      exact Nat.zero_le _
    · rw [hf]
      exact Nat.le_refl _
    · exfalso
      have hmem : ∀ m ∈ l :: l' :: rest, m ∈ t.loop ∧ m.containerId = id
          ∧ m.category = some [] := by
        intro m hm
        rw [← hf, List.mem_filter] at hm
        simpa using hm
      obtain ⟨hl, hcid, hcat⟩ := hmem l (by simp)
      obtain ⟨hl', hcid', hcat'⟩ := hmem l' (by simp)
      have hsame := h.scalar_unique l hl l' hl' hcat hcat' (hcid.trans hcid'.symm)
      rw [hf, hsame] at hnodup
      simp at hnodup
  scalar_packet := by
    intro loop l hl hkey hcat iv hiv iv' hiv'
    have hone := h.scalar_rows l hl hcat
    obtain ⟨hpos, hle⟩ := h.row_le hl hkey hiv
    obtain ⟨hpos', hle'⟩ := h.row_le hl hkey hiv'
    have hle := hle trivial
    have hle' := hle' trivial
    omega

end Tables

namespace PacketIterator

variable {icu : Icu} {props : ValueProps} {bounded : Prop} {cif : Cif} {it : PacketIterator}

theorem updatePacket_follows (h : cif.tables.WellFormed icu bounded) {packet : Packet}
    (hrows : bounded → ∀ item ∈ packet, item.1 ∈ it.itemNames →
      ∀ l ∈ Cif.itemLoops it.loop.container item.1 cif.tables, it.previousRowNum ≤ l.lastRowNum) :
    Outcome (fun r => Follows icu bounded cif.tables r.2.tables)
      (it.updatePacket props packet cif) := by
  unfold updatePacket
  split
  · exact .refl h
  · split
    · exact .refl h
    · rename_i hrow
      simp only
      split
      · trivial
      · exact .refl h
      · rename_i hupd
        exact follows_updateValues h (Nat.one_le_iff_ne_zero.mpr hrow) hrows hupd

/-- What the removal of a packet leaves of the loop's values. -/
theorem mem_loopValues_deletePacket {t : Tables} {loop : Loop} {rowNum : Nat} {iv : ItemValueRow}
    (hiv : iv ∈ Cif.loopValues loop (deletePacket loop rowNum t)) :
    iv ∈ Cif.loopValues loop t ∧ iv.rowNum ≠ rowNum := by
  obtain ⟨hmem, hcid, li, hli, hkey, hnum⟩ := Tables.mem_loopValues.mp hiv
  obtain ⟨hold, hkept⟩ := List.mem_filter.mp hmem
  refine ⟨Tables.mem_loopValues.mpr ⟨hold, hcid, li, hli, hkey, hnum⟩, ?_⟩
  intro hrow
  obtain ⟨hlcid, hname⟩ := Prod.mk.inj hkey
  have hany : (Cif.loopItems loop t).any (·.name = iv.name) = true :=
    List.any_eq_true.mpr ⟨li, List.mem_filter.mpr ⟨hli, by simp [hlcid, hnum]⟩, by simp [hname]⟩
  simp [hcid, hrow, hany] at hkept

theorem removePacket_follows (h : cif.tables.WellFormed icu bounded)
    (hrows : bounded → it.previousRowNum ≠ 0 → it.loop.category = some [] →
      ∀ iv ∈ Cif.loopValues it.loop cif.tables, iv.rowNum = it.previousRowNum) :
    Follows icu bounded cif.tables (it.removePacket cif).2.2.tables := by
  unfold removePacket
  split
  · exact .refl h
  · split
    · exact .refl h
    · rename_i hrow
      have hdelete : Follows icu bounded cif.tables
          (deletePacket it.loop it.previousRowNum cif.tables) :=
        follows_deletePacket h _ _
      by_cases hscalar : it.loop.category = some []
      · have hempty : bounded →
            Cif.loopValues it.loop (deletePacket it.loop it.previousRowNum cif.tables) = [] := by
          intro hb
          refine List.eq_nil_iff_forall_not_mem.mpr ?_
          intro iv hiv
          obtain ⟨hold, hne⟩ := mem_loopValues_deletePacket hiv
          exact hne (hrows hb hrow hscalar iv hold)
        have hreset := follows_resetPacketNumber hdelete.wellFormed hempty
        simp only [hscalar, if_true]
        exact hdelete.trans hreset
      · simp only [hscalar, if_false]
        exact hdelete

end PacketIterator

namespace Session

variable {icu : Icu} {platform : Platform} {bounded : Prop} {s s' : Session}

/-- What a call that goes through an iterator has to find: that an update stays among the rows its
items' loops have given out, and that a removal by the handle of a scalar loop takes the only packet
there is. -/
def Fits (s : Session) : StoreOp → Prop
  | .updatePacket packet => ∀ it ∈ s.iterator, ∀ item ∈ packet, item.1 ∈ it.itemNames →
    ∀ l ∈ Cif.itemLoops it.loop.container item.1 s.cif.tables, it.previousRowNum ≤ l.lastRowNum
  | .removePacket => ∀ it ∈ s.iterator, it.previousRowNum ≠ 0 → it.loop.category = some [] →
    ∀ iv ∈ Cif.loopValues it.loop s.cif.tables, iv.rowNum = it.previousRowNum
  | _ => True

/-- Every call of the run finds what it has to. -/
def Fitting (icu : Icu) (platform : Platform) (s : Session) (ops : List StoreOp) : Prop :=
  ∀ before op after s', ops = before ++ op :: after → s.run icu platform before = some s' →
    s'.Fits op

/-- The calls do not abort the iteration that is open when they begin. -/
def Retained : List StoreOp → Prop
  | [] => True
  | .abort :: _ => False
  | .close :: _ => True
  | _ :: ops => Retained ops

/-- Tables and, inside an iteration, those it began with are well formed. -/
structure WellFormed (icu : Icu) (bounded : Prop) (s : Session) : Prop where
  tables : s.cif.tables.WellFormed icu bounded
  base : ∀ t, s.cif.base = some t → t.WellFormed icu bounded ∧ s.iterator.isSome

theorem WellFormed.initial : WellFormed icu bounded {} where
  tables := by constructor <;> simp [Keyed]
  base := by simp [Cif.base]

theorem onCif_follows {α : Type} {call : Option (Except Int α × Cif)}
    (h : Outcome (fun r => Follows icu bounded s.cif.tables r.2.tables) call) :
    Outcome (fun r => Follows icu bounded s.cif.tables r.2.cif.tables) (s.onCif call) := by
  rw [onCif, outcome_map]
  exact h

theorem onIterator_follows {f : PacketIterator → Option (Except Int Unit × Session)}
    (h : s.cif.tables.WellFormed icu bounded)
    (hf : ∀ it, s.iterator = some it →
      Outcome (fun r => Follows icu bounded s.cif.tables r.2.cif.tables) (f it)) :
    Outcome (fun r => Follows icu bounded s.cif.tables r.2.cif.tables) (s.onIterator f) := by
  unfold onIterator
  cases hit : s.iterator with
  | none => exact .refl h
  | some it => exact hf it hit

theorem getPackets_tables (loop : Loop) :
    Outcome (fun r => r.2.cif.tables = s.cif.tables) (s.step icu platform (.getPackets loop)) := by
  simp only [step]
  split
  · rename_i heq
    exact (PacketIterator.getPackets_error heq).2
  · rename_i heq
    obtain ⟨_, rfl, _⟩ := PacketIterator.getPackets_ok heq
    exact rfl

/-- One call that does not abort. -/
theorem step_follows (h : s.cif.tables.WellFormed icu bounded) {op : StoreOp}
    (hfits : bounded → s.Fits op) (habort : op ≠ .abort) :
    Outcome (fun r => Follows icu bounded s.cif.tables r.2.cif.tables)
      (s.step icu platform op) := by
  cases op with
  | createBlock code lenient => exact onCif_follows (Cif.createBlockInternal_follows h code lenient)
  | createFrame parent code lenient =>
    exact onCif_follows (Cif.createFrameInternal_follows h parent code lenient)
  | destroyContainer container => exact onCif_follows (Cif.destroyContainer_follows h container)
  | createLoop container category names =>
    exact onCif_follows (Cif.createLoop_follows h container category names)
  | destroyLoop loop => exact onCif_follows (Cif.destroyLoop_follows h loop)
  | setCategory loop category => exact Cif.setCategory_follows h loop category
  | setOwnCategory category =>
    exact onIterator_follows h fun it _ => Cif.setCategory_follows h it.loop category
  | getNames loop =>
    refine onCif_follows ?_
    change Follows icu bounded _ (s.cif.getNamesInternal icu loop false).2.tables
    rw [Cif.getNamesInternal_tables]
    exact .refl h
  | addItem loop itemName val => exact onCif_follows (Cif.addItem_follows h loop itemName val)
  | addPacket loop packet => exact onCif_follows (Cif.addPacket_follows h loop packet)
  | getAllLoops container =>
    refine onCif_follows ?_
    change Follows icu bounded _ (s.cif.getAllLoops container).2.tables
    rw [Cif.getAllLoops_tables]
    exact .refl h
  | prune container => exact Cif.prune_follows h container
  | setValue container name val => exact onCif_follows (Cif.setValue_follows h container name val)
  | removeItem container name => exact onCif_follows (Cif.removeItem_follows h container name)
  | getPackets loop =>
    refine (getPackets_tables loop).imp fun r hr => ?_
    rw [hr]
    exact .refl h
  | nextPacket => exact onIterator_follows h fun it _ => .refl h
  | updatePacket packet =>
    exact onIterator_follows h fun it hit =>
      onCif_follows (PacketIterator.updatePacket_follows h fun hb => hfits hb it hit)
  | removePacket =>
    exact onIterator_follows h fun it hit => PacketIterator.removePacket_follows h fun hb =>
      hfits hb it hit
  | close =>
    refine onIterator_follows h fun it _ => ?_
    simp only [PacketIterator.close]
    split <;> exact .refl h
  | abort => exact absurd rfl habort

/-- What an aborted iteration leaves is what it began with. -/
theorem abort_tables :
    Outcome (fun r => r.2.cif.tables = s.cif.tables ∨ s.cif.base = some r.2.cif.tables)
      (s.step icu platform .abort) := by
  simp only [step, onIterator]
  cases s.iterator with
  | none => exact .inl rfl
  | some it =>
    simp only [PacketIterator.abort]
    split
    · exact .inl rfl
    · cases hbase : s.cif.base with
      | none =>
        exact .inl (by simp [Cif.rollback, List.getLastD_eq_getLast?,
          show s.cif.saved.getLast? = none from hbase])
      | some t =>
        exact .inr (by simp [Cif.rollback, List.getLastD_eq_getLast?,
          show s.cif.saved.getLast? = some t from hbase])

/-- A call that does not end an iteration leaves open the transaction it found open, or begins one
with the tables as they are. -/
theorem step_base {op : StoreOp} (hend : ¬ op.EndsIteration) :
    Outcome (fun r => r.2.cif.base = s.cif.base ∨ r.2.cif.base = some s.cif.tables
      ∧ r.2.iterator.isSome) (s.step icu platform op) := by
  by_cases hget : ∃ loop, op = .getPackets loop
  · obtain ⟨loop, rfl⟩ := hget
    simp only [step]
    split
    · rename_i heq
      exact .inl (PacketIterator.getPackets_error heq).1
    · rename_i heq
      obtain ⟨_, rfl, _⟩ := PacketIterator.getPackets_ok heq
      exact .inr ⟨rfl, rfl⟩
  · have hcontained : Outcome (Contained s) (s.step icu platform op) :=
      step_contained hend (by simpa using hget)
    exact hcontained.imp fun r hr => .inl hr.base_eq

theorem WellFormed.base_of_ends (h : s.WellFormed icu bounded) {op : StoreOp}
    (hend : op.EndsIteration) :
    Outcome (fun r => r.2.cif.base = none) (s.step icu platform op) := by
  have hnone : s.iterator = none → s.cif.base = none := by
    intro hit
    cases hbase : s.cif.base with
    | none => rfl
    | some t => simpa [hit] using (h.base t hbase).2
  rcases hend with rfl | rfl
  · simp only [step, onIterator]
    cases hit : s.iterator with
    | none => exact hnone hit
    | some it =>
      simp only [PacketIterator.close]
      split
      · rename_i hauto
        exact Cif.autocommit_iff.mp hauto
      · exact rfl
  · simp only [step, onIterator]
    cases hit : s.iterator with
    | none => exact hnone hit
    | some it =>
      simp only [PacketIterator.abort]
      split
      · rename_i hauto
        exact Cif.autocommit_iff.mp hauto
      · exact rfl

theorem WellFormed.step (h : s.WellFormed icu bounded) {op : StoreOp} (hfits : bounded → s.Fits op)
    {r : Except Int Unit} (hstep : s.step icu platform op = some (r, s')) :
    s'.WellFormed icu bounded where
  tables := by
    by_cases habort : op = .abort
    · subst habort
      rcases abort_tables.of_some hstep with heq | heq
      · exact heq ▸ h.tables
      · exact (h.base _ heq).1
    · exact ((step_follows h.tables hfits habort).of_some hstep).wellFormed
  base := by
    intro t ht
    by_cases hend : op.EndsIteration
    · have hnone := (h.base_of_ends hend).of_some hstep
      rw [hnone] at ht
      cases ht
    · rcases (step_base hend).of_some hstep with heq | ⟨heq, hit⟩
      · rw [heq] at ht
        exact ⟨(h.base t ht).1, (step_keeps_transaction hend ht (h.base t ht).2 hstep).2⟩
      · rw [heq] at ht
        obtain rfl := Option.some.inj ht
        exact ⟨h.tables, hit⟩

theorem Fitting.tail {op : StoreOp} {ops : List StoreOp} (h : s.Fitting icu platform (op :: ops))
    {r : Except Int Unit} (hstep : s.step icu platform op = some (r, s')) :
    s'.Fitting icu platform ops :=
  fun before op' after s'' heq hrun =>
    h (op :: before) op' after s'' (by rw [heq, List.cons_append])
    (run_cons.mpr ⟨r, s', hstep, hrun⟩)

theorem Fitting.left {before after : List StoreOp} (h : s.Fitting icu platform (before ++ after)) :
    s.Fitting icu platform before :=
  fun first op second s'' heq hrun =>
    h first op (second ++ after) s'' (by rw [heq, List.append_assoc, List.cons_append]) hrun

theorem Fitting.right {before after : List StoreOp} (h : s.Fitting icu platform (before ++ after))
    (hrun : s.run icu platform before = some s') : s'.Fitting icu platform after :=
  fun first op second s'' heq hrest =>
    h (before ++ first) op second s'' (by rw [heq, List.append_assoc])
    (run_append.mpr ⟨s', hrun, hrest⟩)

theorem WellFormed.run (h : s.WellFormed icu bounded) {ops : List StoreOp}
    (hfit : bounded → s.Fitting icu platform ops) (hrun : s.run icu platform ops = some s') :
    s'.WellFormed icu bounded := by
  induction ops generalizing s with
  | nil =>
    cases hrun
    exact h
  | cons op ops ih =>
    obtain ⟨r, s₁, hstep, hrest⟩ := run_cons.mp hrun
    exact ih (h.step (fun hb => hfit hb [] op ops s rfl rfl) hstep) (fun hb =>
      (hfit hb).tail hstep) hrest

/-- In a reachable session all holds that does not rest on the rows loops have given out. -/
theorem Reachable.wellFormed (h : Reachable icu platform s) : s.WellFormed icu False := by
  obtain ⟨ops, hrun⟩ := h
  exact WellFormed.initial.run False.elim hrun

/-- Where no iterator is open, no transaction is. -/
theorem Reachable.no_transaction (h : Reachable icu platform s) (hiterator : s.iterator = none) :
    s.cif.saved = [] := by
  have hnone : s.cif.base = none := by
    cases hbase : s.cif.base with
    | none => rfl
    | some t =>
      have hsome := (h.wellFormed.base t hbase).2
      rw [hiterator] at hsome
      cases hsome
  simpa [Cif.base] using hnone

/-- Over a run that does not abort the iteration it begins in, new containers and loops are numbered
from where the tables left off, also where an iteration within the run is aborted. -/
theorem WellFormed.extends_run {t₀ : Tables} {ops : List StoreOp} (h : s.WellFormed icu bounded)
    (hext : t₀.Extends s.cif.tables)
    (hbase : ∀ t, s.cif.base = some t → t₀.Extends t ∨ Retained ops)
    (hfit : bounded → s.Fitting icu platform ops) (hrun : s.run icu platform ops = some s') :
    t₀.Extends s'.cif.tables := by
  induction ops generalizing s with
  | nil =>
    cases hrun
    exact hext
  | cons op ops ih =>
    obtain ⟨r, s₁, hstep, hrest⟩ := run_cons.mp hrun
    have hfits : bounded → s.Fits op := fun hb => hfit hb [] op ops s rfl rfl
    have hwf : s₁.WellFormed icu bounded := h.step hfits hstep
    have hkept : ¬ op.EndsIteration → ∀ t, s₁.cif.base = some t → t₀.Extends t ∨ Retained ops := by
      intro hend t ht
      rcases (step_base hend).of_some hstep with heq | ⟨heq, _⟩
      · rw [heq] at ht
        refine (hbase t ht).imp_right fun hretained => ?_
        cases op <;> first | exact hretained | exact absurd (by simp [StoreOp.EndsIteration]) hend
      · rw [heq] at ht
        obtain rfl := Option.some.inj ht
        exact .inl hext
    have hended : op.EndsIteration → ∀ t, s₁.cif.base = some t → t₀.Extends t ∨ Retained ops := by
      intro hend t ht
      have hnone := (h.base_of_ends hend).of_some hstep
      rw [hnone] at ht
      cases ht
    have hnext : ∀ t, s₁.cif.base = some t → t₀.Extends t ∨ Retained ops := by
      by_cases hend : op.EndsIteration
      · exact hended hend
      · exact hkept hend
    refine ih hwf ?_ hnext (fun hb => (hfit hb).tail hstep) hrest
    by_cases habort : op = .abort
    · subst habort
      rcases abort_tables.of_some hstep with heq | heq
      · exact heq ▸ hext
      · rcases hbase _ heq with hext' | hretained
        · exact hext'
        · exact absurd hretained (by simp [Retained])
    · exact hext.trans ((step_follows h.tables hfits habort).of_some hstep).extends_

/-- In every state of a fitting run the tables are consistent, and a loop that is gone leaves its
number unused, unless the iteration that it went or was made in is aborted. -/
theorem run_consistent {ops : List StoreOp} (hfit : Fitting icu platform {} ops) :
    (∀ before after s, ops = before ++ after → run icu platform {} before = some s →
      s.cif.tables.Consistent)
      ∧ ∀ first second third s₁ s₂ s₃, ops = first ++ second ++ third →
        run icu platform {} first = some s₁ → s₁.run icu platform second = some s₂ →
        s₂.run icu platform third = some s₃ →
        (s₁.iterator.isSome → Retained second) → (s₂.iterator.isSome → Retained third) →
        ∀ l ∈ s₁.cif.tables.loop,
          (∀ l' ∈ s₂.cif.tables.loop, Tables.loopKey l' ≠ Tables.loopKey l) →
          ∀ l'' ∈ s₃.cif.tables.loop, Tables.loopKey l'' ≠ Tables.loopKey l := by
  constructor
  · rintro before after s rfl hrun
    exact (WellFormed.initial.run (fun _ => hfit.left) hrun).tables.consistent
  · rintro first second third s₁ s₂ s₃ rfl hfirst hsecond hthird hretained₁ hretained₂ l hl hgone
    have hfit₁ := hfit.left.right hfirst
    have hfit₂ := hfit.right (run_append.mpr ⟨s₁, hfirst, hsecond⟩)
    have hwf₁ : s₁.WellFormed icu True := WellFormed.initial.run (fun _ => hfit.left.left) hfirst
    have hwf₂ : s₂.WellFormed icu True := hwf₁.run (fun _ => hfit₁) hsecond
    have hext₁ :=
      hwf₁.extends_run (.refl _) (fun t ht => .inr (hretained₁ (hwf₁.base t ht).2)) (fun _ => hfit₁)
      hsecond
    have hext₂ :=
      hwf₂.extends_run (.refl _) (fun t ht => .inr (hretained₂ (hwf₂.base t ht).2)) (fun _ => hfit₂)
      hthird
    exact hext₁.not_reused hwf₁.tables hext₂ hl hgone

/-- A scalar's only packet is removed, and its loop destroyed and made again. -/
theorem run_consistent_scalar :
    let block : Container := ⟨1, units "a", units "a", none⟩
    let loop : Loop := ⟨block, 0, some []⟩
    let ops : List StoreOp := [.createBlock (units "a") false, .setValue block (units "_x") .na,
      .getPackets loop, .nextPacket, .removePacket, .close, .destroyLoop loop,
      .setValue block (units "_x") .unk]
    ∃ s, run Icu.ascii Platform.exact {} ops = some s ∧ s.cif.tables.Consistent := by
  intro block loop ops
  have hreturn : ∀ n : Fin 9, (run Icu.ascii Platform.exact {} (ops.take n)).isSome := by
    decide +kernel
  have hremove : (({} : Session).after Icu.ascii Platform.exact (ops.take 4)).Fits
      .removePacket := by
    simp only [Fits]
    decide +kernel
  have hfits : ∀ n : Fin 8,
      (({} : Session).after Icu.ascii Platform.exact (ops.take n)).Fits (ops.get n) := by
    intro n
    match n with
    | 0 | 1 | 2 | 3 | 5 | 6 | 7 => exact trivial
    | 4 => exact hremove
  have hfit : Fitting Icu.ascii Platform.exact {} ops := by
    intro before op after s' heq hrun
    have hlen : before.length < 8 := by
      have h := congrArg List.length heq
      simp only [ops, List.length_append, List.length_cons, List.length_nil] at h
      omega
    have hbefore : ops.take before.length = before := by simp [heq]
    have hafter := run_after (hreturn ⟨before.length, by omega⟩)
    have h := hfits ⟨before.length, hlen⟩
    simp only [hbefore] at hafter h
    rw [hrun] at hafter
    rw [← Option.some.inj hafter] at h
    simpa [heq] using h
  have hrun := run_after (hreturn 8)
  exact ⟨_, hrun, (run_consistent hfit).1 ops [] _ (List.append_nil ops).symm hrun⟩

/-- A loop's category is dropped through one handle, and a packet of it removed through another: the
numbers of its rows start over below the one that is left. -/
theorem not_consistent_of_stale_category :
    let block : Container := ⟨1, units "a", units "a", none⟩
    let stale : Loop := ⟨block, 0, some []⟩
    let packet : Packet := [(units "_x", units "_x", .na)]
    let ops : List StoreOp := [.createBlock (units "a") false, .setValue block (units "_x") .na,
      .setCategory stale none, .addPacket stale packet, .getPackets stale, .nextPacket,
      .removePacket, .close]
    ∃ s, run Icu.ascii Platform.exact {} ops = some s ∧ ¬ s.cif.tables.Consistent
      ∧ ((s.run Icu.ascii Platform.exact [.addPacket stale packet]).bind fun s =>
        s.step Icu.ascii Platform.exact (.addPacket stale packet)).map (·.1)
          = some (.error Code.error) := by
  intro block stale packet ops
  have hrun : run Icu.ascii Platform.exact {} ops
      = some (({} : Session).after Icu.ascii Platform.exact ops) :=
    run_after (by decide +kernel)
  refine ⟨_, hrun, ?_, by decide +kernel⟩
  intro h
  have hrow : ∃ l ∈ (({} : Session).after Icu.ascii Platform.exact ops).cif.tables.loop,
      Tables.loopKey l = (stale.container.id, stale.loopNum)
      ∧ ∃ iv ∈ Cif.loopValues stale (({} : Session).after Icu.ascii Platform.exact ops).cif.tables,
        ¬ iv.rowNum ≤ l.lastRowNum := by
    decide +kernel
  obtain ⟨l, hl, hkey, iv, hiv, hgt⟩ := hrow
  exact hgt (h.rows stale l hl hkey iv hiv).2.1

end Session

end CifApi
