import CifApi.Data.Keyed
import CifApi.Store.Transactions

/-! What holds of the tables in every state that calls lead to. -/
namespace CifApi

namespace Tables

def loopKey (l : LoopRow) : Nat × Nat := (l.containerId, l.loopNum)

def itemKey (li : LoopItemRow) : Nat × UStr := (li.containerId, li.name)

def valueKey (iv : ItemValueRow) : Nat × UStr × Nat := (iv.containerId, iv.name, iv.rowNum)

/-- The value belongs to an item, and its row, where this is kept track of, is one that the item's
loop has given out. -/
def Placed (bounded : Prop) (t : Tables) (iv : ItemValueRow) : Prop :=
  ∃ li ∈ t.loopItem, itemKey li = (iv.containerId, iv.name) ∧
    ∃ l ∈ t.loop, loopKey l = (li.containerId, li.loopNum) ∧
      1 ≤ iv.rowNum ∧ (bounded → iv.rowNum ≤ l.lastRowNum)

/-- The invariant of the tables. -/
structure WellFormed (icu : Icu) (bounded : Prop) (t : Tables) : Prop where
  containers : Keyed (·.id) t.container
  ids_le : ∀ c ∈ t.container, c.id ≤ t.lastId
  blocks : ∀ b ∈ t.dataBlock, ∃ c ∈ t.container, c.id = b.containerId
  frames : ∀ f ∈ t.saveFrame, ∃ c ∈ t.container, c.id = f.containerId
  nested : ∀ f ∈ t.saveFrame, f.parentId < f.containerId
  loops : Keyed loopKey t.loop
  numbered : ∀ l ∈ t.loop, ∃ c ∈ t.container, c.id = l.containerId ∧ l.loopNum < c.nextLoopNum
  items : Keyed itemKey t.loopItem
  looped : ∀ li ∈ t.loopItem, ∃ l ∈ t.loop, loopKey l = (li.containerId, li.loopNum)
  named : ∀ li ∈ t.loopItem, isValidName li.nameOrig true = true
    ∧ icu.normalize li.nameOrig = li.name
  values : Keyed valueKey t.itemValue
  placed : ∀ iv ∈ t.itemValue, t.Placed bounded iv
  scalar_rows : ∀ l ∈ t.loop, l.category = some [] → l.lastRowNum ≤ 1
  scalar_unique : ∀ l ∈ t.loop, ∀ l' ∈ t.loop, l.category = some [] → l'.category = some [] →
    l.containerId = l'.containerId → l = l'

/-- Later tables number new containers and loops from where earlier ones left off. -/
structure Extends (t t' : Tables) : Prop where
  lastId_le : t.lastId ≤ t'.lastId
  container : ∀ c' ∈ t'.container, t.lastId < c'.id ∨
    ∃ c ∈ t.container, c.id = c'.id ∧ c.nextLoopNum ≤ c'.nextLoopNum
  loop : ∀ l' ∈ t'.loop, (∃ l ∈ t.loop, loopKey l = loopKey l') ∨ t.lastId < l'.containerId ∨
    ∃ c ∈ t.container, c.id = l'.containerId ∧ c.nextLoopNum ≤ l'.loopNum

namespace Extends

variable {t t' t'' : Tables}

theorem refl (t : Tables) : t.Extends t where
  lastId_le := Nat.le_refl _
  container := fun c hc => .inr ⟨c, hc, rfl, Nat.le_refl _⟩
  loop := fun l hl => .inl ⟨l, hl, rfl⟩

theorem of_eq (hid : t'.lastId = t.lastId) (hc : t'.container = t.container)
    (hl : t'.loop = t.loop) : t.Extends t' where
  lastId_le := hid.ge
  container := fun c h => .inr ⟨c, hc ▸ h, rfl, Nat.le_refl _⟩
  loop := fun l h => .inl ⟨l, hl ▸ h, rfl⟩

theorem trans (h : t.Extends t') (h' : t'.Extends t'') : t.Extends t'' where
  lastId_le := h.lastId_le.trans h'.lastId_le
  container := by
    intro c'' hc''
    rcases h'.container c'' hc'' with hnew | ⟨c', hc', hid, hle⟩
    · exact .inl (Nat.lt_of_le_of_lt h.lastId_le hnew)
    · rcases h.container c' hc' with hnew | ⟨c, hc, hid', hle'⟩
      · exact .inl (hid ▸ hnew)
      · exact .inr ⟨c, hc, hid'.trans hid, hle'.trans hle⟩
  loop := by
    intro l'' hl''
    rcases h'.loop l'' hl'' with ⟨l', hl', hkey⟩ | hnew | ⟨c', hc', hid, hle⟩
    · obtain ⟨hcid, hnum⟩ := Prod.mk.inj hkey
      rcases h.loop l' hl' with ⟨l, hl, hkey'⟩ | hnew | ⟨c, hc, hid, hle⟩
      · exact .inl ⟨l, hl, hkey'.trans hkey⟩
      · exact .inr (.inl (hcid ▸ hnew))
      · exact .inr (.inr ⟨c, hc, hid.trans hcid, hnum ▸ hle⟩)
    · exact .inr (.inl (Nat.lt_of_le_of_lt h.lastId_le hnew))
    · rcases h.container c' hc' with hnew | ⟨c, hc, hid', hle'⟩
      · exact .inr (.inl (hid ▸ hnew))
      · exact .inr (.inr ⟨c, hc, hid'.trans hid, hle'.trans hle⟩)

/-- A loop that is there, gone and there again would have been given a number anew. -/
theorem not_reused {icu : Icu} {bounded : Prop} (hwf : t.WellFormed icu bounded) (h : t.Extends t')
    (h' : t'.Extends t'') {l : LoopRow} (hl : l ∈ t.loop)
    (hgone : ∀ l' ∈ t'.loop, loopKey l' ≠ loopKey l) :
    ∀ l'' ∈ t''.loop, loopKey l'' ≠ loopKey l := by
  intro l'' hl'' hkey
  obtain ⟨hcid, hnum⟩ := Prod.mk.inj hkey
  obtain ⟨c, hc, hid, hlt⟩ := hwf.numbered l hl
  rcases h'.loop l'' hl'' with ⟨l', hl', hkey'⟩ | hnew | ⟨c', hc', hid', hle⟩
  · exact hgone l' hl' (hkey'.trans hkey)
  · have := hwf.ids_le c hc
    have := h.lastId_le
    omega
  · rcases h.container c' hc' with hnew | ⟨c₀, hc₀, hid₀, hle₀⟩
    · have := hwf.ids_le c hc
      omega
    · have heq : c = c₀ := hwf.containers.eq hc hc₀ (by omega)
      subst heq
      omega

end Extends

section Changes

variable {icu : Icu} {bounded : Prop} {t t' : Tables}

/-- Well-formed tables that number what is new from where these left off. -/
structure Follows (icu : Icu) (bounded : Prop) (t t' : Tables) : Prop where
  wellFormed : t'.WellFormed icu bounded
  extends_ : t.Extends t'

theorem Follows.refl (h : t.WellFormed icu bounded) : Follows icu bounded t t := ⟨h, .refl t⟩

theorem Follows.trans {t'' : Tables} (h : Follows icu bounded t t')
    (h' : Follows icu bounded t' t'') :
    Follows icu bounded t t'' :=
  ⟨h'.wellFormed, h.extends_.trans h'.extends_⟩

/-- Rows that go take with them what refers to them. -/
theorem WellFormed.restrict (h : t.WellFormed icu bounded) (hid : t'.lastId = t.lastId)
    (hc : t'.container.Sublist t.container) (hf : t'.saveFrame.Sublist t.saveFrame)
    (hl : t'.loop.Sublist t.loop)
    (hi : t'.loopItem.Sublist t.loopItem) (hv : t'.itemValue.Sublist t.itemValue)
    (hblocks : ∀ b ∈ t'.dataBlock, ∃ c ∈ t'.container, c.id = b.containerId)
    (hframes : ∀ f ∈ t'.saveFrame, ∃ c ∈ t'.container, c.id = f.containerId)
    (hkeepc : ∀ l ∈ t'.loop, ∀ c ∈ t.container, c.id = l.containerId → c ∈ t'.container)
    (hkeepl : ∀ li ∈ t'.loopItem, ∀ l ∈ t.loop, loopKey l = (li.containerId, li.loopNum) →
      l ∈ t'.loop)
    (hkeepi : ∀ iv ∈ t'.itemValue, ∀ li ∈ t.loopItem, itemKey li = (iv.containerId, iv.name) →
      li ∈ t'.loopItem) : Follows icu bounded t t' := by
  refine ⟨?_, ?_⟩
  · constructor
    · exact h.containers.sublist hc
    · intro c hmem
      rw [hid]
      exact h.ids_le c (hc.subset hmem)
    · exact hblocks
    · exact hframes
    · intro f hmem
      exact h.nested f (hf.subset hmem)
    · exact h.loops.sublist hl
    · intro l hmem
      obtain ⟨c, hcmem, hcid, hlt⟩ := h.numbered l (hl.subset hmem)
      exact ⟨c, hkeepc l hmem c hcmem hcid, hcid, hlt⟩
    · exact h.items.sublist hi
    · intro li hmem
      obtain ⟨l, hlmem, hkey⟩ := h.looped li (hi.subset hmem)
      exact ⟨l, hkeepl li hmem l hlmem hkey, hkey⟩
    · intro li hmem
      exact h.named li (hi.subset hmem)
    · exact h.values.sublist hv
    · intro iv hmem
      obtain ⟨li, hli, hkey, l, hlmem, hlkey, hrow⟩ := h.placed iv (hv.subset hmem)
      have hli' := hkeepi iv hmem li hli hkey
      exact ⟨li, hli', hkey, l, hkeepl li hli' l hlmem hlkey, hlkey, hrow⟩
    · intro l hmem
      exact h.scalar_rows l (hl.subset hmem)
    · intro l hmem l' hmem'
      exact h.scalar_unique l (hl.subset hmem) l' (hl.subset hmem')
  · constructor
    · exact hid.ge
    · intro c hmem
      exact .inr ⟨c, hc.subset hmem, rfl, Nat.le_refl _⟩
    · intro l hmem
      exact .inl ⟨l, hl.subset hmem, rfl⟩

theorem WellFormed.withValues (h : t.WellFormed icu bounded) {values : List ItemValueRow}
    (hkeyed : Keyed valueKey values) (hplaced : ∀ iv ∈ values, t.Placed bounded iv) :
    ({ t with itemValue := values } : Tables).WellFormed icu bounded where
  containers := h.containers
  ids_le := h.ids_le
  blocks := h.blocks
  frames := h.frames
  nested := h.nested
  loops := h.loops
  numbered := h.numbered
  items := h.items
  looped := h.looped
  named := h.named
  values := hkeyed
  placed := hplaced
  scalar_rows := h.scalar_rows
  scalar_unique := h.scalar_unique

/-- A change to loops in place: what it may not do is make one scalar or forget a row in use. -/
theorem WellFormed.mapLoop (h : t.WellFormed icu bounded) {g : LoopRow → LoopRow}
    (hkey : ∀ l ∈ t.loop, loopKey (g l) = loopKey l)
    (hscalar : ∀ l ∈ t.loop, (g l).category = some [] → l.category = some [] ∧ (g l).lastRowNum ≤ 1)
    (hrows : bounded → ∀ iv ∈ t.itemValue, ∀ li ∈ t.loopItem,
      itemKey li = (iv.containerId, iv.name) →
      ∀ l ∈ t.loop, loopKey l = (li.containerId, li.loopNum) → iv.rowNum ≤ l.lastRowNum →
        iv.rowNum ≤ (g l).lastRowNum) :
    Follows icu bounded t { t with loop := t.loop.map g } := by
  refine ⟨?_, ?_⟩
  · constructor
    · exact h.containers
    · exact h.ids_le
    · exact h.blocks
    · exact h.frames
    · exact h.nested
    · exact h.loops.map hkey
    · intro l' hl'
      obtain ⟨l, hl, rfl⟩ := List.mem_map.mp hl'
      obtain ⟨c, hc, hid, hlt⟩ := h.numbered l hl
      obtain ⟨hcid, hnum⟩ := Prod.mk.inj (hkey l hl)
      exact ⟨c, hc, hid.trans hcid.symm, hnum ▸ hlt⟩
    · exact h.items
    · intro li hli
      obtain ⟨l, hl, hlkey⟩ := h.looped li hli
      exact ⟨g l, List.mem_map_of_mem hl, (hkey l hl).trans hlkey⟩
    · exact h.named
    · exact h.values
    · intro iv hiv
      obtain ⟨li, hli, hikey, l, hl, hlkey, hpos, hle⟩ := h.placed iv hiv
      exact ⟨li, hli, hikey, g l, List.mem_map_of_mem hl, (hkey l hl).trans hlkey, hpos,
        fun hb => hrows hb iv hiv li hli hikey l hl hlkey (hle hb)⟩
    · intro l' hl' hcat
      obtain ⟨l, hl, rfl⟩ := List.mem_map.mp hl'
      exact (hscalar l hl hcat).2
    · intro l' hl' l'' hl'' hcat hcat' hcid
      obtain ⟨l, hl, rfl⟩ := List.mem_map.mp hl'
      obtain ⟨m, hm, rfl⟩ := List.mem_map.mp hl''
      have hlc := (Prod.mk.inj (hkey l hl)).1
      have hmc := (Prod.mk.inj (hkey m hm)).1
      rw [h.scalar_unique l hl m hm (hscalar l hl hcat).1 (hscalar m hm hcat').1
        (hlc.symm.trans (hcid.trans hmc))]
  · constructor
    · exact Nat.le_refl _
    · intro c hc
      exact .inr ⟨c, hc, rfl, Nat.le_refl _⟩
    · intro l' hl'
      obtain ⟨l, hl, rfl⟩ := List.mem_map.mp hl'
      exact .inl ⟨l, hl, (hkey l hl).symm⟩

end Changes

end Tables

open Tables (Follows)

namespace Cif

variable {icu : Icu} {props : ValueProps} {bounded : Prop} {t t' : Tables}

/-- A new container, that of a frame later than its parent's. -/
theorem follows_newContainer (h : t.WellFormed icu bounded) {dataBlock : List DataBlockRow}
    {saveFrame : List SaveFrameRow}
    (hblocks : ∀ b ∈ dataBlock, b ∈ t.dataBlock ∨ b.containerId = t.lastId + 1)
    (hframes : ∀ f ∈ saveFrame, f ∈ t.saveFrame ∨ f.containerId = t.lastId + 1
      ∧ f.parentId ≤ t.lastId) :
    Follows icu bounded t { t with
      container := t.container ++ [⟨t.lastId + 1, 0⟩]
      lastId := t.lastId + 1
      dataBlock, saveFrame } where
  wellFormed := by
    constructor
    · refine h.containers.concat ?_
      intro c hc
      have hle := h.ids_le c hc
      change c.id ≠ t.lastId + 1
      omega
    · intro c hc
      rcases List.mem_append.mp hc with hold | hnew
      · have hle := h.ids_le c hold
        change c.id ≤ t.lastId + 1
        omega
      · obtain rfl := List.mem_singleton.mp hnew
        exact Nat.le_refl _
    · intro b hb
      rcases hblocks b hb with hold | hid
      · obtain ⟨c, hc, hcid⟩ := h.blocks b hold
        exact ⟨c, List.mem_append_left _ hc, hcid⟩
      · exact ⟨_, List.mem_append_right _ (List.mem_singleton_self _), hid.symm⟩
    · intro f hf
      rcases hframes f hf with hold | ⟨hid, _⟩
      · obtain ⟨c, hc, hcid⟩ := h.frames f hold
        exact ⟨c, List.mem_append_left _ hc, hcid⟩
      · exact ⟨_, List.mem_append_right _ (List.mem_singleton_self _), hid.symm⟩
    · intro f hf
      rcases hframes f hf with hold | ⟨hid, hparent⟩
      · exact h.nested f hold
      · omega
    · exact h.loops
    · intro l hl
      obtain ⟨c, hc, hid, hlt⟩ := h.numbered l hl
      exact ⟨c, List.mem_append_left _ hc, hid, hlt⟩
    · exact h.items
    · exact h.looped
    · exact h.named
    · exact h.values
    · exact h.placed
    · exact h.scalar_rows
    · exact h.scalar_unique
  extends_ := by
    constructor
    · exact Nat.le_succ _
    · intro c hc
      rcases List.mem_append.mp hc with hold | hnew
      · exact .inr ⟨c, hold, rfl, Nat.le_refl _⟩
      · obtain rfl := List.mem_singleton.mp hnew
        exact .inl (Nat.lt_succ_self _)
    · intro l hl
      exact .inl ⟨l, hl, rfl⟩

theorem follows_deleteContainer (h : t.WellFormed icu bounded) (id : Nat) :
    Follows icu bounded t (deleteContainer id t) := by
  have hkept : ∀ c ∈ t.container, c.id ≠ id → c ∈ (deleteContainer id t).container :=
    fun c hc hne => List.mem_filter.mpr ⟨hc, by simpa using hne⟩
  refine h.restrict rfl List.filter_sublist List.filter_sublist List.filter_sublist
    List.filter_sublist List.filter_sublist ?_ ?_ ?_ ?_ ?_
  · intro b hb
    obtain ⟨hb, hne⟩ := List.mem_filter.mp hb
    obtain ⟨c, hc, hcid⟩ := h.blocks b hb
    exact ⟨c, hkept c hc (by simpa [hcid] using hne), hcid⟩
  · intro f hf
    obtain ⟨hf, hne⟩ := List.mem_filter.mp hf
    obtain ⟨c, hc, hcid⟩ := h.frames f hf
    have hne' : f.containerId ≠ id ∧ f.parentId ≠ id := by simpa using hne
    exact ⟨c, hkept c hc (hcid ▸ hne'.1), hcid⟩
  · intro l hl c hc hcid
    have hne := (List.mem_filter.mp hl).2
    exact hkept c hc (by simpa [hcid] using hne)
  · intro li hli l hl hkey
    have hne := (List.mem_filter.mp hli).2
    obtain ⟨hcid, _⟩ := Prod.mk.inj hkey
    exact List.mem_filter.mpr ⟨hl, by simpa [hcid] using hne⟩
  · intro iv hiv li hli hkey
    have hne := (List.mem_filter.mp hiv).2
    obtain ⟨hcid, _⟩ := Prod.mk.inj hkey
    exact List.mem_filter.mpr ⟨hli, by simpa [hcid] using hne⟩

theorem follows_deleteLoop (h : t.WellFormed icu bounded) (id loopNum : Nat) :
    Follows icu bounded t (deleteLoop id loopNum t) := by
  refine h.restrict rfl (List.Sublist.refl _) (List.Sublist.refl _)
    List.filter_sublist List.filter_sublist List.filter_sublist h.blocks h.frames ?_ ?_ ?_
  · intro l _ c hc _
    exact hc
  · intro li hli l hl hkey
    have hne := (List.mem_filter.mp hli).2
    obtain ⟨hcid, hnum⟩ := Prod.mk.inj hkey
    exact List.mem_filter.mpr ⟨hl, by simpa [hcid, hnum] using hne⟩
  · intro iv hiv li hli hkey
    have hkept := (List.mem_filter.mp hiv).2
    obtain ⟨hcid, hname⟩ := Prod.mk.inj hkey
    refine List.mem_filter.mpr ⟨hli, ?_⟩
    by_contra hgone
    simp only [Bool.not_eq_true', Bool.not_eq_false, Bool.and_eq_true, decide_eq_true_eq] at hgone
    have hany : (t.loopItem.any fun li => li.containerId = id && li.loopNum = loopNum
        && li.name = iv.name) = true :=
      List.any_eq_true.mpr ⟨li, hli, by simp [hgone.1, hgone.2, hname]⟩
    simp_all

theorem follows_deleteItem (h : t.WellFormed icu bounded) (id : Nat) (name : UStr) :
    Follows icu bounded t (deleteItem id name t) := by
  refine h.restrict rfl (List.Sublist.refl _) (List.Sublist.refl _)
    (List.Sublist.refl _) List.filter_sublist List.filter_sublist h.blocks h.frames ?_ ?_ ?_
  · intro l _ c hc _
    exact hc
  · intro li _ l hl _
    exact hl
  · intro iv hiv li hli hkey
    have hkept := (List.mem_filter.mp hiv).2
    obtain ⟨hcid, hname⟩ := Prod.mk.inj hkey
    exact List.mem_filter.mpr ⟨hli, by simpa [hcid, hname] using hkept⟩

theorem follows_prune (container : Container) {cif : Cif} (h : cif.tables.WellFormed icu bounded) :
    Follows icu bounded cif.tables (cif.prune container).tables := by
  refine h.restrict rfl (List.Sublist.refl _) (List.Sublist.refl _)
    List.filter_sublist List.filter_sublist (List.Sublist.refl _) h.blocks h.frames ?_ ?_ ?_
  · intro l _ c hc _
    exact hc
  · intro li hli l hl hkey
    have hkept := (List.mem_filter.mp hli).2
    obtain ⟨hcid, hnum⟩ := Prod.mk.inj hkey
    exact List.mem_filter.mpr ⟨hl, by simpa only [hcid, hnum] using hkept⟩
  · intro iv hiv li hli hkey
    obtain ⟨hcid, hname⟩ := Prod.mk.inj hkey
    refine List.mem_filter.mpr ⟨hli, ?_⟩
    by_cases hid : li.containerId = container.id
    · -- the item has a value, so that its loop is kept
      simp only [hid, decide_true, Bool.not_true, Bool.false_or]
      refine List.any_eq_true.mpr ⟨li, hli, ?_⟩
      have hany : (cif.tables.itemValue.any fun iv => iv.containerId = container.id
          && iv.name = li.name) = true :=
        List.any_eq_true.mpr ⟨iv, hiv, by simp [← hcid, hid, hname]⟩
      simp [hid, hany]
    · simp [hid]

theorem follows_insertLoop (h : t.WellFormed icu bounded) {container : Container}
    {category : Option UStr} {loopNum : Nat}
    (hins : insertLoop container category t = .ok (loopNum, t')) : Follows icu bounded t t' := by
  unfold insertLoop at hins
  split at hins
  · simp at hins
  · rename_i row hfind
    split at hins
    · simp at hins
    · rename_i hscalar
      obtain ⟨rfl, rfl⟩ := Prod.mk.inj (Except.ok.inj hins)
      have hrow := List.mem_of_find?_eq_some hfind
      have hid : row.id = container.id := by simpa using List.find?_some hfind
      have hfresh : ∀ l ∈ t.loop, Tables.loopKey l ≠ (container.id, row.nextLoopNum) := by
        intro l hl hkey
        obtain ⟨hcid, hnum⟩ := Prod.mk.inj hkey
        obtain ⟨c, hc, hcid', hlt⟩ := h.numbered l hl
        have hsame : c = row := h.containers.eq hc hrow (by omega)
        subst hsame
        omega
      have hbump : ∀ c ∈ t.container, ∃ c' ∈ t.container.map (fun c =>
          if c.id = container.id then { c with nextLoopNum := c.nextLoopNum + 1 } else c),
          c'.id = c.id ∧ c.nextLoopNum ≤ c'.nextLoopNum
            ∧ (c.id = container.id → c.nextLoopNum < c'.nextLoopNum) := by
        intro c hc
        refine ⟨_, List.mem_map_of_mem hc, ?_⟩
        by_cases hcid : c.id = container.id <;> simp [hcid]
      constructor
      · constructor
        · refine h.containers.map ?_
          intro c _
          by_cases hcid : c.id = container.id <;> simp [hcid]
        · intro c' hc'
          obtain ⟨c, hc, rfl⟩ := List.mem_map.mp hc'
          have hle := h.ids_le c hc
          by_cases hcid : c.id = container.id <;> simpa [hcid] using hle
        · intro b hb
          obtain ⟨c, hc, hcid⟩ := h.blocks b hb
          obtain ⟨c', hc', hcid', _⟩ := hbump c hc
          exact ⟨c', hc', hcid'.trans hcid⟩
        · intro f hf
          obtain ⟨c, hc, hcid⟩ := h.frames f hf
          obtain ⟨c', hc', hcid', _⟩ := hbump c hc
          exact ⟨c', hc', hcid'.trans hcid⟩
        · exact h.nested
        · exact h.loops.concat hfresh
        · intro l hl
          rcases List.mem_append.mp hl with hold | hnew
          · obtain ⟨c, hc, hcid, hlt⟩ := h.numbered l hold
            obtain ⟨c', hc', hcid', hle, _⟩ := hbump c hc
            exact ⟨c', hc', hcid'.trans hcid, Nat.lt_of_lt_of_le hlt hle⟩
          · obtain rfl := List.mem_singleton.mp hnew
            obtain ⟨c', hc', hcid', _, hlt⟩ := hbump row hrow
            exact ⟨c', hc', hcid'.trans hid, hlt hid⟩
        · exact h.items
        · intro li hli
          obtain ⟨l, hl, hkey⟩ := h.looped li hli
          exact ⟨l, List.mem_append_left _ hl, hkey⟩
        · exact h.named
        · exact h.values
        · intro iv hiv
          obtain ⟨li, hli, hkey, l, hl, hlkey, hrange⟩ := h.placed iv hiv
          exact ⟨li, hli, hkey, l, List.mem_append_left _ hl, hlkey, hrange⟩
        · intro l hl hcat
          rcases List.mem_append.mp hl with hold | hnew
          · exact h.scalar_rows l hold hcat
          · obtain rfl := List.mem_singleton.mp hnew
            exact Nat.zero_le _
        · -- a second scalar loop is what the trigger rules out
          have hnone : ∀ l ∈ t.loop, category = some [] → l.category = some [] →
              l.containerId ≠ container.id := by
            intro l hl hcat hlcat hlcid
            have hany : (t.loop.any fun l => l.containerId = container.id
                && l.category = some []) = true :=
              List.any_eq_true.mpr ⟨l, hl, by simp [hlcid, hlcat]⟩
            simp [hcat, hany] at hscalar
          intro l hl l' hl' hcat hcat' hcid
          rcases List.mem_append.mp hl with hold | hnew <;>
            rcases List.mem_append.mp hl' with hold' | hnew'
          · exact h.scalar_unique l hold l' hold' hcat hcat' hcid
          · obtain rfl := List.mem_singleton.mp hnew'
            exact absurd hcid (hnone l hold hcat' hcat)
          · obtain rfl := List.mem_singleton.mp hnew
            exact absurd hcid.symm (hnone l' hold' hcat hcat')
          · rw [List.mem_singleton.mp hnew, List.mem_singleton.mp hnew']
      · constructor
        · exact Nat.le_refl _
        · intro c' hc'
          obtain ⟨c, hc, rfl⟩ := List.mem_map.mp hc'
          refine .inr ⟨c, hc, ?_⟩
          by_cases hcid : c.id = container.id <;> simp [hcid]
        · intro l hl
          rcases List.mem_append.mp hl with hold | hnew
          · exact .inl ⟨l, hold, rfl⟩
          · obtain rfl := List.mem_singleton.mp hnew
            exact .inr (.inr ⟨row, hrow, hid, Nat.le_refl _⟩)

theorem follows_addLoopItem (h : t.WellFormed icu bounded) {container : Container}
    {name nameOrig : UStr} {loopNum : Nat}
    (hname : isValidName nameOrig true = true ∧ icu.normalize nameOrig = name)
    (hadd : addLoopItem container name nameOrig loopNum t = some t') :
    Follows icu bounded t t' := by
  unfold addLoopItem at hadd
  split at hadd
  · simp at hadd
  · rename_i hcheck
    obtain rfl := Option.some.inj hadd
    simp only [Bool.or_eq_true, not_or, Bool.not_eq_true', Bool.not_eq_false] at hcheck
    obtain ⟨hnew, hloop⟩ := hcheck
    have hfresh : ∀ li ∈ t.loopItem, Tables.itemKey li ≠ (container.id, name) := by
      intro li hli hkey
      obtain ⟨hcid, hname⟩ := Prod.mk.inj hkey
      exact hnew (List.any_eq_true.mpr ⟨li, hli, by simp [hcid, hname]⟩)
    obtain ⟨l, hl, hlkey⟩ := List.any_eq_true.mp hloop
    simp only [Bool.and_eq_true, decide_eq_true_eq] at hlkey
    refine ⟨?_, .of_eq rfl rfl rfl⟩
    constructor
    · exact h.containers
    · exact h.ids_le
    · exact h.blocks
    · exact h.frames
    · exact h.nested
    · exact h.loops
    · exact h.numbered
    · exact h.items.concat hfresh
    · intro li hli
      rcases List.mem_append.mp hli with hold | hnew
      · exact h.looped li hold
      · obtain rfl := List.mem_singleton.mp hnew
        exact ⟨l, hl, Prod.ext hlkey.1 hlkey.2⟩
    · intro li hli
      rcases List.mem_append.mp hli with hold | hnew
      · exact h.named li hold
      · obtain rfl := List.mem_singleton.mp hnew
        exact hname
    · exact h.values
    · intro iv hiv
      obtain ⟨li, hli, hplaced⟩ := h.placed iv hiv
      exact ⟨li, List.mem_append_left _ hli, hplaced⟩
    · exact h.scalar_rows
    · exact h.scalar_unique

theorem follows_addLoopItems {container : Container} {loopNum : Nat} {names : List (UStr × UStr)}
    (h : t.WellFormed icu bounded)
    (hnames : ∀ name ∈ names, isValidName name.2 true = true ∧ icu.normalize name.2 = name.1)
    (hadd : addLoopItems container loopNum names t = some t') : Follows icu bounded t t' := by
  induction names generalizing t with
  | nil =>
    obtain rfl := Option.some.inj hadd
    exact .refl h
  | cons name names ih =>
    obtain ⟨t₁, hfirst, hrest⟩ := Option.bind_eq_some_iff.mp hadd
    have hstep := follows_addLoopItem h (hnames name (List.mem_cons_self ..)) hfirst
    exact hstep.trans (ih hstep.wellFormed (fun n hn => hnames n (List.mem_cons_of_mem _ hn)) hrest)

/-- A new row for each packet takes the place of what the packet had for the item. -/
theorem follows_setAllValuesSql (h : t.WellFormed icu bounded) (container : Container) (name : UStr)
    (value : Value) :
    Follows icu bounded t (setAllValuesSql container name value t).2 := by
  have hrows : ∀ row ∈ packetRows container name t,
      t.Placed bounded ⟨container.id, name, row, value⟩ := by
    intro row hrow
    obtain ⟨iv, hiv, rfl⟩ := List.mem_map.mp (List.mem_eraseDups.mp hrow)
    obtain ⟨hiv, hsel⟩ := List.mem_filter.mp hiv
    simp only [Bool.and_eq_true, decide_eq_true_eq, List.any_eq_true] at hsel
    obtain ⟨hcid, li₁, hli₁, ⟨hcid₁, hname₁⟩, li₂, hli₂, ⟨hcid₂, hnum⟩, hname₂⟩ := hsel
    obtain ⟨li, hli, hkey, l, hl, hlkey, hrange⟩ := h.placed iv hiv
    have hsame : li = li₂ :=
      h.items.eq hli hli₂ (hkey.trans (by simp [Tables.itemKey, hcid, hcid₂, hname₂]))
    subst hsame
    exact ⟨li₁, hli₁, by simp [Tables.itemKey, hcid₁, hname₁], l, hl,
      by rw [hlkey, hcid₂, hnum, hcid₁], hrange⟩
  refine ⟨h.withValues ?_ ?_, .of_eq rfl rfl rfl⟩
  · refine (h.values.filter _).append ?_ ?_
    · have hnodup : (packetRows container name t).Nodup := nodup_eraseDups _
      unfold Keyed
      rw [List.map_map]
      refine hnodup.map ?_
      intro row row' heq
      simpa [Tables.valueKey] using heq
    · intro iv hiv iv' hiv' hkey
      obtain ⟨row, hrow, rfl⟩ := List.mem_map.mp hiv'
      obtain ⟨hcid, hname, hnum⟩ : iv.containerId = container.id ∧ iv.name = name
          ∧ iv.rowNum = row := by
        simpa [Tables.valueKey] using hkey
      have hgone := (List.mem_filter.mp hiv).2
      simp [hcid, hname, hnum, hrow] at hgone
  · intro iv hiv
    rcases List.mem_append.mp hiv with hold | hnew
    · exact h.placed iv (List.mem_filter.mp hold).1
    · obtain ⟨row, hrow, rfl⟩ := List.mem_map.mp hnew
      exact hrows row hrow

/-- One value more, in a row that its item's loop has given out. -/
theorem follows_insertValue (h : t.WellFormed icu bounded) {iv : ItemValueRow}
    (hnew : ∀ iv' ∈ t.itemValue, Tables.valueKey iv' ≠ Tables.valueKey iv)
    (hplaced : t.Placed bounded iv) :
    Follows icu bounded t { t with itemValue := t.itemValue ++ [iv] } := by
  refine ⟨h.withValues (h.values.concat hnew) ?_, .of_eq rfl rfl rfl⟩
  intro iv' hiv'
  rcases List.mem_append.mp hiv' with hold | hmem
  · exact h.placed iv' hold
  · obtain rfl := List.mem_singleton.mp hmem
    exact hplaced

theorem follows_insertValues {loop : Loop} {rowNum : Nat} {packet : Packet}
    (h : t.WellFormed icu bounded) {l : LoopRow} (hl : l ∈ t.loop)
    (hkey : Tables.loopKey l = (loop.container.id, loop.loopNum)) (hpos : 1 ≤ rowNum)
    (hle : bounded → rowNum ≤ l.lastRowNum)
    (hins : insertValues props loop rowNum packet t = some (.ok t')) :
    Follows icu bounded t t' := by
  induction packet generalizing t with
  | nil =>
    obtain rfl := Except.ok.inj (Option.some.inj hins)
    exact .refl h
  | cons item packet ih =>
    obtain ⟨key, orig, value⟩ := item
    obtain ⟨⟨li, hli, hcid, hname, hnum⟩, -, hnew, hrest⟩ := insertValues_cons_iff.mp hins
    have hstep : Follows icu bounded t { t with
        itemValue := t.itemValue ++ [⟨loop.container.id, key, rowNum, value⟩] } := by
      refine follows_insertValue h ?_ ?_
      · intro iv hiv hsame
        exact hnew iv hiv (by simpa [Tables.valueKey] using hsame)
      · exact ⟨li, hli, by simp [Tables.itemKey, hcid, hname], l, hl, by rw [hkey, hcid, hnum],
          hpos, hle⟩
    exact hstep.trans (ih hstep.wellFormed hl hrest)

/-- The next packet's number; that of a scalar loop is the first. -/
theorem follows_bump (h : t.WellFormed icu bounded) {loop : Loop} {l : LoopRow} (hl : l ∈ t.loop)
    (hkey : Tables.loopKey l = (loop.container.id, loop.loopNum))
    (hscalar : l.category = some [] → l.lastRowNum = 0) :
    Follows icu bounded t { t with loop := t.loop.map fun l =>
      if l.containerId = loop.container.id && l.loopNum = loop.loopNum
      then { l with lastRowNum := l.lastRowNum + 1 } else l } := by
  refine h.mapLoop (g := fun l => if l.containerId = loop.container.id && l.loopNum = loop.loopNum
      then { l with lastRowNum := l.lastRowNum + 1 } else l) ?_ ?_ ?_
  · intro l' _
    split <;> rfl
  · intro l' hl' hcat
    by_cases hself : (l'.containerId = loop.container.id && l'.loopNum = loop.loopNum) = true
    · simp only [hself, if_true] at hcat ⊢
      have hsame : l' = l := by
        refine h.loops.eq hl' hl ?_
        rw [hkey]
        simpa [Tables.loopKey] using hself
      subst hsame
      exact ⟨hcat, by rw [hscalar hcat]⟩
    · simp only [hself, if_false, Bool.false_eq_true] at hcat ⊢
      exact ⟨hcat, h.scalar_rows l' hl' hcat⟩
  · intro _ iv _ li _ _ l' _ _ hle
    split
    · exact Nat.le_succ_of_le hle
    · exact hle

/-- A category that is not the scalars' one can be given to any loop. -/
theorem follows_category (h : t.WellFormed icu bounded) (loop : Loop) {category : Option UStr}
    (hcategory : category ≠ some []) :
    Follows icu bounded t { t with loop := t.loop.map fun l =>
      if l.containerId = loop.container.id && l.loopNum = loop.loopNum then { l with category }
        else l } := by
  refine h.mapLoop (g := fun l =>
      if l.containerId = loop.container.id && l.loopNum = loop.loopNum then { l with category }
        else l)
      ?_ ?_ ?_
  · intro l _
    split <;> rfl
  · intro l hl hcat
    by_cases hself : (l.containerId = loop.container.id && l.loopNum = loop.loopNum) = true
    · simp only [hself, if_true] at hcat
      exact absurd hcat hcategory
    · simp only [hself, if_false, Bool.false_eq_true] at hcat ⊢
      exact ⟨hcat, h.scalar_rows l hl hcat⟩
  · intro _ iv _ li _ _ l _ _ hle
    split <;> exact hle

end Cif

namespace PacketIterator

variable {icu : Icu} {props : ValueProps} {bounded : Prop} {t t' : Tables}

theorem follows_deletePacket (h : t.WellFormed icu bounded) (loop : Loop) (rowNum : Nat) :
    Follows icu bounded t (deletePacket loop rowNum t) := by
  refine h.restrict rfl (List.Sublist.refl _) (List.Sublist.refl _)
    (List.Sublist.refl _) (List.Sublist.refl _) List.filter_sublist h.blocks h.frames ?_ ?_ ?_
  · exact fun _ _ _ hc _ => hc
  · exact fun _ _ _ hl _ => hl
  · exact fun _ _ _ hli _ => hli

/-- Numbering may start over in a loop that has no packet left. -/
theorem follows_resetPacketNumber (h : t.WellFormed icu bounded) {loop : Loop}
    (hempty : bounded → Cif.loopValues loop t = []) :
    Follows icu bounded t (resetPacketNumber loop t) := by
  refine h.mapLoop (g := fun l =>
      if l.containerId = loop.container.id && l.loopNum = loop.loopNum then
        { l with lastRowNum := 0 }
      else l) ?_ ?_ ?_
  · intro l _
    split <;> rfl
  · intro l hl hcat
    by_cases hself : (l.containerId = loop.container.id && l.loopNum = loop.loopNum) = true
    · simp only [hself, if_true] at hcat ⊢
      exact ⟨hcat, Nat.zero_le _⟩
    · simp only [hself, if_false, Bool.false_eq_true] at hcat ⊢
      exact ⟨hcat, h.scalar_rows l hl hcat⟩
  · intro hb iv hiv li hli hkey l hl hlkey hle
    split
    · rename_i hself
      -- such a value would be one of the loop's
      exfalso
      obtain ⟨hcid, hname⟩ := Prod.mk.inj hkey
      obtain ⟨hlcid, hlnum⟩ := Prod.mk.inj hlkey
      simp only [Bool.and_eq_true, decide_eq_true_eq] at hself
      have hmem : iv ∈ Cif.loopValues loop t := by
        rw [Cif.loopValues, (List.perm_insertionSort _ _).mem_iff, List.mem_filter]
        refine ⟨hiv, ?_⟩
        have hitem : li ∈ Cif.loopItems loop t :=
          List.mem_filter.mpr ⟨hli, by simp [← hlcid, ← hlnum, hself.1, hself.2]⟩
        have hany : (Cif.loopItems loop t).any (·.name = iv.name) = true :=
          List.any_eq_true.mpr ⟨li, hitem, by simp [hname]⟩
        simp [hany, ← hcid, ← hlcid, hself.1]
      simp [hempty hb] at hmem
    · exact hle

/-- Values replaced in a row that their items' loops have given out. -/
theorem follows_updateValues {it : PacketIterator} {packet : Packet} (h : t.WellFormed icu bounded)
    (hpos : 1 ≤ it.previousRowNum)
    (hrows : bounded → ∀ item ∈ packet, item.1 ∈ it.itemNames →
      ∀ l ∈ Cif.itemLoops it.loop.container item.1 t, it.previousRowNum ≤ l.lastRowNum)
    (hupd : it.updateValues props packet t = some (.ok t')) : Follows icu bounded t t' := by
  induction packet generalizing t with
  | nil =>
    obtain rfl := Except.ok.inj (Option.some.inj hupd)
    exact .refl h
  | cons item packet ih =>
    obtain ⟨key, orig, value⟩ := item
    obtain ⟨hknown, -, ⟨li, hli, hcid, hlname⟩, hrest⟩ := updateValues_cons_iff.mp hupd
    obtain ⟨l, hl, hlkey⟩ := h.looped li hli
    obtain ⟨hlcid, hlnum⟩ := Prod.mk.inj hlkey
    have hle : bounded → it.previousRowNum ≤ l.lastRowNum := by
      intro hb
      refine hrows hb _ (List.mem_cons_self ..) hknown l (List.mem_filter.mpr ⟨hl, ?_⟩)
      have hany : (t.loopItem.any fun li => li.containerId = it.loop.container.id && li.name = key
          && li.loopNum = l.loopNum) = true :=
        List.any_eq_true.mpr ⟨li, hli, by simp [hcid, hlname, hlnum]⟩
      simp [hany, hlcid, hcid]
    have hplaced : t.Placed bounded ⟨it.loop.container.id, key, it.previousRowNum, value⟩ :=
      ⟨li, hli, by simp [Tables.itemKey, hcid, hlname], l, hl, hlkey, hpos, hle⟩
    have hstep : Follows icu bounded t { t with
        itemValue := (t.itemValue.filter fun iv => !(iv.containerId = it.loop.container.id
            && iv.name = key && iv.rowNum = it.previousRowNum))
          ++ [⟨it.loop.container.id, key, it.previousRowNum, value⟩] } := by
      refine ⟨h.withValues ((h.values.filter _).concat ?_) ?_, .of_eq rfl rfl rfl⟩
      · intro iv hiv hsame
        have hgone := (List.mem_filter.mp hiv).2
        simp_all [Tables.valueKey]
      · intro iv hiv
        rcases List.mem_append.mp hiv with hold | hmem
        · exact h.placed iv (List.mem_filter.mp hold).1
        · obtain rfl := List.mem_singleton.mp hmem
          exact hplaced
    exact hstep.trans (ih hstep.wellFormed (fun hb i hi =>
      hrows hb i (List.mem_cons_of_mem _ hi)) hrest)

end PacketIterator

end CifApi
