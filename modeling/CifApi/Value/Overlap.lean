import CifApi.Data.Nodes
import CifApi.Value.Map

/-! Elements of lists and tables replaced by values that may be nodes of the same tree. -/
namespace CifApi

namespace Value

/-- The elements of a list, or the values of a table. -/
def parts : Value → List Value
  | list elements => elements
  | table entries => entries.map (·.2.2)
  | _ => []

def replacePart : Value → Nat → Value → Value
  | list elements, i, part => list (elements.set i part)
  | table entries, i, part => table (entries.modify i fun e => (e.1, e.2.1, part))
  | value, _, _ => value

/-- What a node is without its parts. -/
inductive Shape where
  | single (value : Value)
  | list (size : Nat)
  | table (keys : List UStr)

/-- A list's size, a table's keys, and other values as they are. -/
def shape : Value → Shape
  | list elements => .list elements.length
  | table entries => .table (entries.map (·.1))
  | value => .single value

section Parts

variable (value part part' : Value) {i j : Nat}

theorem parts_replacePart (i : Nat) :
    (value.replacePart i part).parts = value.parts.set i part := by
  cases value with
  | list elements => rfl
  | table entries =>
    exact @Nodes.map_modify_part (UStr × UStr × Value) _ (fun e b =>
      (e.1, e.2.1, b)) (·.2.2) (fun _ _ => rfl) entries i part
  | char => rfl
  | numb => rfl
  | na => rfl
  | unk => rfl

theorem shape_replacePart (i : Nat) : (value.replacePart i part).shape = value.shape := by
  cases value with
  | list elements => simp [replacePart, shape]
  | table entries =>
    have hkeys : (entries.modify i fun e => (e.1, e.2.1, part)).map (·.1) = entries.map (·.1) := by
      apply List.ext_getElem?
      intro j
      simp only [List.getElem?_map, List.getElem?_modify]
      by_cases hij : i = j
      · cases entries[j]? with
        | none => rfl
        | some e => simp [hij]
      · simp [hij]
    show Shape.table _ = Shape.table _
    rw [hkeys]
  | char => rfl
  | numb => rfl
  | na => rfl
  | unk => rfl

theorem replacePart_replacePart (i : Nat) :
    (value.replacePart i part).replacePart i part' = value.replacePart i part' := by
  cases value with
  | list elements => simp [replacePart]
  | table entries => simp [replacePart, List.modify_modify_eq, Function.comp_def]
  | char => rfl
  | numb => rfl
  | na => rfl
  | unk => rfl

variable {value part}

theorem replacePart_part (h : value.parts[i]? = some part) : value.replacePart i part = value := by
  cases value with
  | list elements =>
    obtain ⟨hi, rfl⟩ := List.getElem?_eq_some_iff.mp h
    exact congrArg list (List.set_getElem_self _)
  | table entries =>
    exact congrArg table (@Nodes.modify_part _ _ entries (fun e b =>
      (e.1, e.2.1, b)) (·.2.2) i (fun _ => rfl) part h)
  | char => rfl
  | numb => rfl
  | na => rfl
  | unk => rfl

end Parts

instance : Nodes Value where
  child value i := value.parts[i]?
  replace := replacePart
  child_replace_self := by
    intro value part i part' h
    obtain ⟨hi, -⟩ := List.getElem?_eq_some_iff.mp h
    rw [parts_replacePart, List.getElem?_set_self hi]
  child_replace_of_ne := by
    intro i j value part hij
    rw [parts_replacePart, List.getElem?_set_ne hij]
  replace_child := replacePart_part
  replace_replace := replacePart_replacePart

mutual

/-- `cif_value_clone` into a value of its own. -/
def clone : Value → Value
  | char text quoted => char text quoted
  | numb number quoted => numb number quoted
  | list elements => list (cloneElements elements)
  | table entries => table (cloneEntries entries)
  | na => na
  | unk => unk

def cloneElements : List Value → List Value
  | [] => []
  | element :: rest => clone element :: cloneElements rest

def cloneEntries : List (UStr × UStr × Value) → List (UStr × UStr × Value)
  | [] => []
  | (key, keyOrig, value) :: rest => (key, keyOrig, clone value) :: cloneEntries rest

end

section Clone

mutual

theorem clone_eq : ∀ value : Value, value.clone = value
  | char text quoted => by rw [clone]
  | numb number quoted => by rw [clone]
  | list elements => by rw [clone, cloneElements_eq elements]
  | table entries => by rw [clone, cloneEntries_eq entries]
  | na => by rw [clone]
  | unk => by rw [clone]

theorem cloneElements_eq : ∀ elements : List Value, cloneElements elements = elements
  | [] => by rw [cloneElements]
  | element :: rest => by rw [cloneElements, clone_eq element, cloneElements_eq rest]

theorem cloneEntries_eq : ∀ entries : List (UStr × UStr × Value), cloneEntries entries = entries
  | [] => by rw [cloneEntries]
  | (key, keyOrig, value) :: rest => by rw [cloneEntries, clone_eq value, cloneEntries_eq rest]

end

end Clone

open Nodes

/-- `cif_value_clone_list` onto a node of the tree that the elements are read from: each is copied
as it is when its turn comes, and there is no result where the memory it was in is freed. -/
def cloneListOnto (source target : List Nat) : Nat → Value → List Value → Option Value
  | 0, root, _ => some root
  | left + 1, root, elements => do
    let element ← get root (source ++ [elements.length])
    let elements := elements ++ [element.clone]
    cloneListOnto source target left (put root target (list elements)) elements

/-- `cif_value_clone` onto a node, of a node of the same tree. -/
def cloneOnto (root : Value) (source target : List Nat) : Option Value := do
  -- `cif_value_clean` comes first
  let root := put root target unk
  match ← get root source with
  | list elements => cloneListOnto source target elements.length (put root target (list [])) []
  -- a table is copied to the side
  | table entries => some (put root target (table (cloneEntries entries)))
  | value => some (put root target value.clone)

/-- An existing element is replaced by a node of the tree, or by an unknown value. -/
def assign (root : Value) (target : List Nat) : Option (List Nat) → Option Value
  | none => some (put root target unk)
  | some source => if source = target then some root else cloneOnto root source target

/-- `cif_value_set_element_at` for a list in a tree: the code it answers and the tree after it,
unless it reads what has been freed. -/
def setElementAt (root : Value) (node : List Nat) (index : Nat) (element : Option (List Nat)) :
    Option (Int × Value) := do
  match ← get root node with
  | list elements =>
    if elements.length ≤ index then some (Code.invalidIndex, root)
    else return (Code.ok, ← root.assign (node ++ [index]) element)
  | _ => some (Code.argumentError, root)

/-- Where `HASH_FIND` finds a key: hash buckets keep the entry added last in front. -/
def findKey (entries : List (UStr × UStr × Value)) (key : UStr) : Option Nat :=
  (List.range entries.length).reverse.find? fun i => (entries[i]?).any (·.1 = key)

variable (icu : Icu)

/-- `cif_value_set_item_by_key` for a table in a tree. -/
def setItemByKey (root : Value) (node : List Nat) (key : UStr) (item : Option (List Nat)) :
    Option (Int × Value) := do
  match ← get root node with
  | table entries =>
    match icu.normalizeTableIndex key Code.invalidIndex with
    | .error code => some (code, root)
    | .ok keyNorm =>
      match findKey entries keyNorm with
      | some i =>
        let root := if (entries[i]?).any (·.2.1 = key) then root
          else put root node (table (entries.modify i fun e => (e.1, key, e.2.2)))
        return (Code.ok, ← root.assign (node ++ [i]) item)
      | none =>
        let value ← item.elim (some unk) (get root)
        return (Code.ok, put root node (table (entries ++ [(keyNorm, key, value.clone)])))
  | _ => some (Code.argumentError, root)

/-- What is in place of a part of a value while the value is copied onto it: the elements copied by
then, or nothing. -/
def standIn : Value → Nat → Value
  | list elements, i => list (elements.take i)
  | _, _ => unk

section Clone

variable {root value : Value} {source target : List Nat} {elements : List Value}

theorem get_singleton_list (elements : List Value) (i : Nat) :
    get (list elements) [i] = elements[i]? := by
  show (elements[i]?).bind some = _
  rw [Option.bind_fun_some]

/-- The copies are the elements as they are read while the ones before them are in place. -/
theorem cloneListOnto_eq (root : Value) (left : Nat) (copied : List Value)
    (hlength : copied.length + left = elements.length)
    (hcopied : elements.take copied.length = copied)
    (hread : ∀ i (_ : i < elements.length), copied.length ≤ i
      → get (put root target (list (elements.take i))) (source ++ [i]) = some elements[i]) :
    cloneListOnto source target left (put root target (list copied)) copied
      = some (put root target (list elements)) := by
  induction left generalizing copied with
  | zero =>
    rw [Nat.add_zero] at hlength
    rw [hlength, List.take_length] at hcopied
    rw [cloneListOnto, hcopied]
  | succ left ih =>
    have hlt : copied.length < elements.length := by omega
    have hnext : elements.take (copied.length + 1) = copied ++ [elements[copied.length]] := by
      rw [List.take_add_one, hcopied, List.getElem?_eq_getElem hlt]
      rfl
    have helement := hread _ hlt le_rfl
    rw [hcopied] at helement
    rw [cloneListOnto, helement]
    show cloneListOnto source target left (put (put root target (list copied)) target
      (list (copied ++ [clone elements[copied.length]])))
        (copied ++ [clone elements[copied.length]]) = _
    rw [clone_eq, put_put]
    apply ih
    · rw [List.length_append, List.length_singleton]
      omega
    · rw [List.length_append, List.length_singleton, hnext]
    · intro i hi hle
      rw [List.length_append, List.length_singleton] at hle
      exact hread i hi (by omega)

/-- A node that is neither in the target nor around it is copied as it is. -/
theorem cloneOnto_apart (hvalue : get root source = some value) (hbelow : ¬ target <+: source)
    (habove : ¬ source <+: target) : cloneOnto root source target
      = some (put root target value) := by
  have hread : ∀ b, get (put root target b) source = some value := by
    intro b
    rw [get_put_apart root b hbelow habove, hvalue]
  rw [cloneOnto, hread]
  cases value with
  | list elements =>
    show cloneListOnto source target elements.length (put (put root target unk) target (list [])) []
        = _
    rw [put_put]
    refine cloneListOnto_eq root elements.length [] (Nat.zero_add _) rfl ?_
    intro i hi _
    rw [get_append, hread]
    show get (list elements) [i] = _
    rw [get_singleton_list, List.getElem?_eq_getElem hi]
  | table entries =>
    show some (put (put root target unk) target (table (cloneEntries entries))) = _
    rw [cloneEntries_eq, put_put]
  | _ =>
    show some (put (put root target unk) target (clone _)) = _
    rw [clone_eq, put_put]

/-- A part of the target is freed before it is read. -/
theorem cloneOnto_below {old : Value} (hold : get root target = some old) (i : Nat)
    (rest : List Nat) :
    cloneOnto root (target ++ i :: rest) target = none := by
  rw [cloneOnto, get_append, get_put_self hold]
  rfl

/-- What is around the target is copied with the stand-in in the place of the target. -/
theorem cloneOnto_above {old : Value} {i : Nat} {rest : List Nat}
    (hvalue : get root source = some value) (hold : get root (source ++ i :: rest) = some old) :
    cloneOnto root source (source ++ i :: rest)
      = some (put root (source ++ i :: rest) (put value (i :: rest) (value.standIn i))) := by
  have hread : ∀ b, get (put root (source ++ i :: rest) b) source
      = some (put value (i :: rest) b) := by
    intro b
    rw [get_put_above, hvalue]
    rfl
  rw [get_append, hvalue, Option.bind_some] at hold
  obtain ⟨part, hpart, -⟩ := Option.bind_eq_some_iff.mp hold
  have hput : ∀ b, put value (i :: rest) b = value.replacePart i (put part rest b) :=
    fun b => put_of_child hpart rest b
  rw [cloneOnto, hread, hput, hput]
  cases value with
  | list elements =>
    show cloneListOnto source (source ++ i :: rest) (elements.set i (put part rest unk)).length
      (put (put root (source ++ i :: rest) unk) (source ++ i :: rest) (list [])) []
      = some (put root (source ++ i :: rest)
        (list (elements.set i (put part rest (list (elements.take i))))))
    rw [put_put, List.length_set]
    refine cloneListOnto_eq root elements.length [] (by simp) rfl ?_
    intro j hj _
    rw [List.length_set] at hj
    rw [get_append, hread, hput, Option.bind_some]
    show get (list (elements.set i _)) [j] = _
    rw [get_singleton_list, List.getElem?_set, List.getElem_set]
    by_cases hij : i = j
    · subst hij
      rw [if_pos rfl, if_pos hj, if_pos rfl, List.take_set_of_le (le_refl i)]
    · rw [if_neg hij, if_neg hij, List.getElem?_eq_getElem hj]
  | table entries =>
    show some (put (put root _ unk) _ (table (cloneEntries _))) = some (put root _ (table _))
    rw [cloneEntries_eq, put_put]
    rfl
  | _ => cases hpart

end Clone

/-- The call succeeds, the target is what the source was, and all nodes that are not in the target
are as they were. -/
def CopiesPrior (root value : Value) (target : List Nat) (result : Option (Int × Value)) : Prop :=
  ∃ after, result = some (Code.ok, after) ∧ get after target = some value
    ∧ ∀ path, ¬ target <+: path → (get after path).map shape = (get root path).map shape

/-- The source is not in the target, and if it is around the target, then the target is what stands
in for it. -/
structure Undisturbed (root value : Value) (source target : List Nat) : Prop where
  below : ∀ i rest, source ≠ target ++ i :: rest
  above : ∀ i rest, target = source ++ i :: rest → get root target = some (value.standIn i)

section Assign

variable {root value old : Value} {source target : List Nat}

/-- Only the target is written. -/
theorem exists_of_cloneListOnto {after : Value} {left : Nat} {copied : List Value} {b : Value}
    (h : cloneListOnto source target left (put root target b) copied = some after) :
    ∃ c, after = put root target c := by
  induction left generalizing copied b with
  | zero =>
    cases h
    exact ⟨b, rfl⟩
  | succ left ih =>
    obtain ⟨element, -, h⟩ := Option.bind_eq_some_iff.mp h
    dsimp only at h
    rw [put_put] at h
    exact ih h

theorem exists_of_cloneOnto {after : Value} (h : cloneOnto root source target = some after) :
    ∃ c, after = put root target c := by
  obtain ⟨value, -, h⟩ := Option.bind_eq_some_iff.mp h
  cases value with
  | list elements =>
    dsimp only at h
    rw [put_put] at h
    exact exists_of_cloneListOnto h
  | _ =>
    cases h
    exact ⟨_, put_put root _ _ target⟩

/-- The nodes that are not in the target keep their shapes. -/
theorem shape_assign {item : Option (List Nat)} {after : Value}
    (h : root.assign target item = some after) {path : List Nat} (hpath : ¬ target <+: path) :
    (get after path).map shape = (get root path).map shape := by
  have hput : ∀ b, (get (put root target b) path).map shape = (get root path).map shape :=
    fun b => map_get_put shape (fun a i b => shape_replacePart a b i) root b hpath
  cases item with
  | none =>
    cases h
    exact hput unk
  | some source =>
    rw [assign] at h
    split at h
    · cases h
      rfl
    · obtain ⟨c, rfl⟩ := exists_of_cloneOnto h
      exact hput c

/-- What the source was is in the target after the call just where the source is undisturbed. -/
theorem assign_iff (hvalue : get root source = some value) (hold : get root target = some old) :
    (∃ after, root.assign target (some source) = some after ∧ get after target = some value)
      ↔ Undisturbed root value source target := by
  rw [assign]
  rcases path_cases source target with rfl | ⟨i, rest, rfl⟩ | ⟨i, rest, rfl⟩ | ⟨habove, hbelow⟩
  · rw [if_pos rfl]
    refine iff_of_true ⟨root, rfl, hvalue⟩ ⟨?_, ?_⟩
    · intro i rest heq
      exact absurd (List.self_eq_append_right.mp heq) (List.cons_ne_nil i rest)
    · intro i rest heq
      exact absurd (List.self_eq_append_right.mp heq) (List.cons_ne_nil i rest)
  · have hne : source ≠ source ++ i :: rest :=
      fun heq => List.cons_ne_nil i rest (List.self_eq_append_right.mp heq)
    rw [if_neg hne, cloneOnto_above hvalue hold]
    have hchild : get value (i :: rest) = some old := by
      rw [get_append, hvalue, Option.bind_some] at hold
      exact hold
    constructor
    · rintro ⟨after, hafter, hget⟩
      cases hafter
      rw [get_put_self hold, Option.some_inj, put_eq_self_iff hchild, hchild] at hget
      refine ⟨?_, ?_⟩
      · intro j rest' heq
        rw [List.append_assoc] at heq
        exact absurd (List.self_eq_append_right.mp heq) (by simp)
      · intro j rest' heq
        obtain ⟨rfl, -⟩ := List.cons.inj (List.append_cancel_left heq)
        rw [hold, hget]
    · intro h
      refine ⟨_, rfl, ?_⟩
      rw [get_put_self hold, Option.some_inj, put_eq_self_iff hchild, hchild, ← hold]
      exact h.above i rest rfl
  · have hne : target ++ i :: rest ≠ target :=
      fun heq => List.cons_ne_nil i rest (List.append_right_eq_self.mp heq)
    rw [if_neg hne, cloneOnto_below hold]
    refine iff_of_false ?_ fun h => h.below i rest rfl
    rintro ⟨after, hafter, -⟩
    cases hafter
  · have hne : source ≠ target := by
      rintro rfl
      exact habove List.prefix_rfl
    rw [if_neg hne, cloneOnto_apart hvalue hbelow habove]
    refine iff_of_true ⟨_, rfl, get_put_self hold value⟩ ⟨?_, ?_⟩
    · rintro i rest rfl
      exact hbelow (List.prefix_append _ _)
    · rintro i rest rfl
      exact absurd (List.prefix_append _ _) habove

/-- The other nodes are as they were in a tree of the same shapes that the call is made on. -/
theorem copiesPrior_assign_iff {before : Value}
    (hshape : ∀ path, (get before path).map shape = (get root path).map shape) :
    CopiesPrior root value target ((before.assign target (some source)).map fun after =>
      (Code.ok, after))
      ↔ ∃ after, before.assign target (some source) = some after
        ∧ get after target = some value := by
  constructor
  · rintro ⟨after, hresult, hget, -⟩
    obtain ⟨after', hafter, heq⟩ := Option.map_eq_some_iff.mp hresult
    cases heq
    exact ⟨after, hafter, hget⟩
  · rintro ⟨after, hafter, hget⟩
    refine ⟨after, by rw [hafter]; rfl, hget, fun path hpath => ?_⟩
    rw [shape_assign hafter hpath, hshape]

end Assign

section Elements

variable {root value : Value} {node source : List Nat} {elements : List Value}
  {entries : List (UStr × UStr × Value)} {i : Nat}

theorem get_element (hnode : get root node = some (list elements)) (hi : i < elements.length) :
    get root (node ++ [i]) = some elements[i] := by
  rw [get_append, hnode, Option.bind_some, get_singleton_list, List.getElem?_eq_getElem hi]

/-- A list element is replaced by what the source was just where the source is undisturbed. -/
theorem setElementAt_copiesPrior_iff (hnode : get root node = some (list elements))
    (hi : i < elements.length) (hvalue : get root source = some value) :
    CopiesPrior root value (node ++ [i]) (root.setElementAt node i (some source))
      ↔ Undisturbed root value source (node ++ [i]) := by
  rw [← assign_iff hvalue (get_element hnode hi)]
  have hcall : root.setElementAt node i (some source)
      = (root.assign (node ++ [i]) (some source)).map fun after => (Code.ok, after) := by
    rw [setElementAt, hnode]
    show (if elements.length ≤ i then some (Code.invalidIndex, root) else _) = _
    rw [if_neg (not_le.mpr hi)]
    cases root.assign (node ++ [i]) (some source) with
    | none => rfl
    | some after => rfl
  rw [hcall, copiesPrior_assign_iff fun _ => rfl]

/-- The table with a key spelled anew. -/
def respelled (entries : List (UStr × UStr × Value)) (i : Nat) (key : UStr) : Value :=
  table (entries.modify i fun e => (e.1, key, e.2.2))

theorem parts_respelled (entries : List (UStr × UStr × Value)) (i : Nat) (key : UStr) :
    (respelled entries i key).parts = (table entries).parts := by
  apply List.ext_getElem?
  intro j
  simp only [respelled, parts, List.getElem?_map, List.getElem?_modify]
  by_cases hij : i = j
  · cases entries[j]? with
    | none => rfl
    | some e => simp [hij]
  · simp [hij]

theorem shape_respelled (entries : List (UStr × UStr × Value)) (i : Nat) (key : UStr) :
    (respelled entries i key).shape = (table entries).shape := by
  show Shape.table _ = Shape.table _
  congr 1
  apply List.ext_getElem?
  intro j
  simp only [List.getElem?_map, List.getElem?_modify]
  by_cases hij : i = j
  · cases entries[j]? with
    | none => rfl
    | some e => simp [hij]
  · simp [hij]

/-- Nodes below a table do not tell how its keys are spelled. -/
theorem get_put_respelled (hnode : get root node = some (table entries)) (key : UStr)
    {path : List Nat} (hpath : ¬ path <+: node) :
    get (put root node (respelled entries i key)) path = get root path := by
  rcases path_cases path node with rfl | ⟨j, rest, rfl⟩ | ⟨j, rest, rfl⟩ | ⟨hapart, hapart'⟩
  · exact absurd List.prefix_rfl hpath
  · exact absurd (List.prefix_append _ _) hpath
  · rw [get_append, get_put_self hnode, get_append, hnode]
    show ((respelled entries i key).parts[j]?).bind _ = ((table entries).parts[j]?).bind _
    rw [parts_respelled]
  · exact get_put_apart root _ hapart' hapart

theorem shape_put_respelled (hnode : get root node = some (table entries)) (key : UStr)
    (path : List Nat) :
    (get (put root node (respelled entries i key)) path).map shape = (get root path).map shape := by
  by_cases hpath : node <+: path
  · obtain ⟨rest, rfl⟩ := hpath
    cases rest with
    | nil =>
      rw [List.append_nil, get_put_self hnode, hnode, Option.map_some, Option.map_some,
        shape_respelled]
    | cons j rest => rw [get_put_respelled hnode key (not_extension node rest j)]
  · exact map_get_put shape (fun a i b => shape_replacePart a b i) root _ hpath

theorem get_entry {key keyOrig : UStr} (hnode : get root node = some (table entries))
    (hentry : entries[i]? = some (key, keyOrig, value)) : get root (node ++ [i]) = some value := by
  rw [get_append, hnode, Option.bind_some]
  show ((entries.map (·.2.2))[i]?).bind some = some value
  rw [List.getElem?_map, hentry]
  rfl

/-- A call on an entry that is there, with the key spelled anew unless it is spelled the same. -/
theorem setItemByKey_eq {icu : Icu} {key keyNorm : UStr}
    (hnode : get root node = some (table entries))
    (hnorm : icu.normalizeTableIndex key Code.invalidIndex = .ok keyNorm)
    (hfound : findKey entries keyNorm = some i) :
    root.setItemByKey icu node key (some source) = ((if (entries[i]?).any (·.2.1 = key) then root
      else put root node (respelled entries i key)).assign (node ++ [i]) (some source)).map
        fun after => (Code.ok, after) := by
  rw [setItemByKey, hnode]
  show (match icu.normalizeTableIndex key Code.invalidIndex with
    | .error code => some (code, root)
    | .ok keyNorm => _) = _
  rw [hnorm]
  dsimp only
  rw [hfound]
  dsimp only
  show (Option.bind (assign (if (entries[i]?).any (·.2.1 = key) then root
    else put root node (respelled entries i key)) _ _) _) = _
  cases assign _ _ _ with
  | none => rfl
  | some after => rfl

theorem findKey_spec {key : UStr} (h : findKey entries key = some i) :
    ∃ keyOrig old, entries[i]? = some (key, keyOrig, old) := by
  have hfound := List.find?_some h
  cases hentry : entries[i]? with
  | none =>
    rw [hentry] at hfound
    cases hfound
  | some e =>
    obtain ⟨k, keyOrig, old⟩ := e
    rw [hentry] at hfound
    obtain rfl : k = key := by simpa using hfound
    exact ⟨keyOrig, old, rfl⟩

/-- A source around a table that is given another spelling of a key is not copied as it was. -/
theorem not_copied_respelled {key keyOrig keyNorm : UStr} {old : Value}
    (hnode : get root node = some (table entries))
    (hentry : entries[i]? = some (keyNorm, keyOrig, old)) (hother : keyOrig ≠ key)
    (hvalue : get root source = some value)
    (haround : source <+: node) : ¬ ∃ after,
      (put root node (respelled entries i key)).assign (node ++ [i]) (some source) = some after
        ∧ get after (node ++ [i]) = some value := by
  rintro ⟨after, hafter, hget⟩
  obtain ⟨s, rfl⟩ := haround
  have hcons : ∃ j rest, s ++ [i] = j :: rest := by
    cases s with
    | nil => exact ⟨i, [], rfl⟩
    | cons j s => exact ⟨j, s ++ [i], rfl⟩
  obtain ⟨j, rest, hrest⟩ := hcons
  have hold : get (put root (source ++ s) (respelled entries i key)) (source ++ s ++ [i])
      = some old := by
    rw [get_put_respelled hnode key (not_extension _ [] i)]
    exact get_entry hnode hentry
  have hsource : get (put root (source ++ s) (respelled entries i key)) source
      = some (put value s (respelled entries i key)) := by
    rw [get_put_above, hvalue]
    rfl
  have hentries : get value s = some (table entries) := by
    rw [get_append, hvalue] at hnode
    exact hnode
  have hne : source ≠ source ++ j :: rest :=
    fun heq => List.cons_ne_nil j rest (List.self_eq_append_right.mp heq)
  rw [assign, List.append_assoc, hrest, if_neg hne] at hafter
  rw [List.append_assoc, hrest] at hold hget
  rw [cloneOnto_above hsource hold] at hafter
  cases hafter
  rw [get_put_self hold, Option.some_inj, ← hrest] at hget
  -- the table in the copy has the new spelling
  generalize standIn _ j = b at hget
  have htable := congrArg (get · s) hget
  rw [get_put_above, get_put_self hentries, hentries, Option.map_some, Option.some_inj] at htable
  have hchild : child (respelled entries i key) i = some old := by
    show (respelled entries i key).parts[i]? = some old
    rw [parts_respelled]
    show (entries.map (·.2.2))[i]? = some old
    rw [List.getElem?_map, hentry]
    rfl
  rw [put_of_child hchild] at htable
  have hsame := congrArg (·[i]?) (Value.table.inj htable)
  simp only [List.getElem?_modify, if_pos, hentry, Option.map_eq_map, Option.map_some,
    Option.some_inj, Prod.mk.injEq] at hsame
  exact hother hsame.2.1.symm

/-- A table entry is replaced by what the source was just where the source is undisturbed, and the
key is spelled as before if the source is around the table. -/
theorem setItemByKey_copiesPrior_iff {icu : Icu} {key keyNorm : UStr}
    (hnode : get root node = some (table entries))
    (hnorm : icu.normalizeTableIndex key Code.invalidIndex = .ok keyNorm)
    (hfound : findKey entries keyNorm = some i)
    (hvalue : get root source = some value) :
    CopiesPrior root value (node ++ [i]) (root.setItemByKey icu node key (some source))
      ↔ Undisturbed root value source (node ++ [i])
        ∧ (source <+: node → (entries[i]?).any (·.2.1 = key) = true) := by
  obtain ⟨keyOrig, old, hentry⟩ := findKey_spec hfound
  have hold := get_entry hnode hentry
  rw [setItemByKey_eq hnode hnorm hfound]
  by_cases hsame : (entries[i]?).any (·.2.1 = key) = true
  · rw [if_pos hsame, and_iff_left fun _ => hsame, ← assign_iff hvalue hold,
      copiesPrior_assign_iff fun _ => rfl]
  · rw [if_neg hsame, copiesPrior_assign_iff (shape_put_respelled hnode key)]
    have hother : keyOrig ≠ key := by simpa [hentry] using hsame
    by_cases haround : source <+: node
    · exact iff_of_false (not_copied_respelled hnode hentry hother hvalue haround) fun h =>
        hsame (h.2 haround)
    · have hvalue' : get (put root node (respelled entries i key)) source = some value := by
        rw [get_put_respelled hnode key haround, hvalue]
      have hold' : get (put root node (respelled entries i key)) (node ++ [i]) = some old := by
        rw [get_put_respelled hnode key (not_extension node [] i), hold]
      have hundisturbed : Undisturbed (put root node (respelled entries i key)) value source
          (node ++ [i])
          ↔ Undisturbed root value source (node ++ [i]) := by
        constructor
        · exact fun h =>
            ⟨h.below, fun j rest heq => by rw [hold, ← hold']; exact h.above j rest heq⟩
        · exact fun h =>
            ⟨h.below, fun j rest heq => by rw [hold', ← hold]; exact h.above j rest heq⟩
      rw [and_iff_left fun h => absurd h haround, ← hundisturbed, ← assign_iff hvalue' hold']

/-- An element of a list or a table is replaced by what the source was just where the source is
undisturbed, and a key of a table that the source is around is spelled as before. -/
theorem copiesPrior_iff (icu : Icu) (hvalue : get root source = some value) :
    (∀ elements i, get root node = some (list elements) → i < elements.length →
      (CopiesPrior root value (node ++ [i]) (root.setElementAt node i (some source))
        ↔ Undisturbed root value source (node ++ [i])))
    ∧ ∀ entries key keyNorm i, get root node = some (table entries) →
      icu.normalizeTableIndex key Code.invalidIndex = .ok keyNorm →
        findKey entries keyNorm = some i →
      (CopiesPrior root value (node ++ [i]) (root.setItemByKey icu node key (some source))
        ↔ Undisturbed root value source (node ++ [i])
          ∧ (source <+: node → (entries[i]?).any (·.2.1 = key) = true)) :=
  ⟨fun _ _ hnode hi => setElementAt_copiesPrior_iff hnode hi hvalue,
    fun _ _ _ _ hnode hnorm hfound => setItemByKey_copiesPrior_iff hnode hnorm hfound hvalue⟩

end Elements

/-- A list with another element of it in the place of the first. -/
theorem copiesPrior_iff_sibling :
    CopiesPrior (list [na, unk]) unk [0] ((list [na, unk]).setElementAt [] 0 (some [1])) := by
  have hvalue : get (list [na, unk]) [1] = some unk := rfl
  refine (((copiesPrior_iff Icu.ascii hvalue).1 [na, unk] 0 rfl (by decide)).mpr
    ⟨?_, ?_⟩ : CopiesPrior _ _ ([] ++ [0]) _)
  · intro i rest heq
    cases heq
  · intro i rest heq
    cases heq

/-- An element of the element replaced is read after it is freed, and a list in one of its own
elements has the copies made by then in the place of that element. -/
theorem not_copiesPrior_overlap :
    (list [list [na]]).setElementAt [] 0 (some [0, 0]) = none
      ∧ (list [na, unk]).setElementAt [] 1 (some [])
        = some (Code.ok, list [na, list [na, list [na]]])
      ∧ ¬ CopiesPrior (list [list [na]]) na [0] ((list [list [na]]).setElementAt [] 0 (some [0, 0]))
      ∧ ¬ CopiesPrior (list [na, unk]) (list [na, unk]) [1]
      ((list [na, unk]).setElementAt [] 1 (some [])) := by
  have hfreed : (list [list [na]]).setElementAt [] 0 (some [0, 0]) = none := rfl
  have hself : (list [na, unk]).setElementAt [] 1 (some [])
      = some (Code.ok, list [na, list [na, list [na]]]) := rfl
  refine ⟨hfreed, hself, ?_, ?_⟩
  · rintro ⟨after, hresult, -⟩
    rw [hfreed] at hresult
    cases hresult
  · rintro ⟨after, hresult, hget, -⟩
    rw [hself] at hresult
    cases hresult
    cases hget

end Value

end CifApi
