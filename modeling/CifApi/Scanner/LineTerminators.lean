import CifApi.Scanner.Buffer

/-! Line terminators: their normal form, and what the conversion of a chunk in place makes of
them. -/
namespace CifApi

/-- A lone carriage return read as a line feed. -/
def lfOf (c : UChar) : UChar := if c = UChar.cr then UChar.nl else c

/-- Each CR LF pair and each lone CR replaced by one LF; `afterCr` tells that a CR comes before. -/
def normalizeFrom : Bool → List UChar → List UChar
  | _, [] => []
  | afterCr, c :: rest =>
    if afterCr && c = UChar.nl then normalizeFrom false rest
    else lfOf c :: normalizeFrom (c = UChar.cr) rest

def normalizeTerminators (units : List UChar) : List UChar := normalizeFrom false units

/-- The number of CR LF pairs, where `afterCr` tells that a CR comes before. -/
def crlfFrom : Bool → List UChar → Nat
  | _, [] => 0
  | afterCr, c :: rest =>
    (if afterCr && c = UChar.nl then 1 else 0) + crlfFrom (c = UChar.cr) rest

def crlfCount (units : List UChar) : Nat := crlfFrom false units

theorem length_normalizeFrom (afterCr : Bool) (units : List UChar) :
    (normalizeFrom afterCr units).length + crlfFrom afterCr units = units.length := by
  induction units generalizing afterCr with
  | nil => rfl
  | cons c rest ih =>
    by_cases hc : afterCr = true ∧ c = UChar.nl
    · obtain ⟨rfl, rfl⟩ := hc
      have h := ih false
      simp only [normalizeFrom, crlfFrom, Bool.true_and, decide_true, if_true, List.length_cons]
      have : decide (UChar.nl = UChar.cr) = false := by decide
      rw [this]
      omega
    · have hf : (afterCr && decide (c = UChar.nl)) = false := by
        cases afterCr <;> simp_all
      have h := ih (c = UChar.cr)
      simp only [normalizeFrom, crlfFrom, hf, List.length_cons]
      simp only [Bool.false_eq_true, if_false, List.length_cons]
      omega

theorem length_normalizeTerminators (units : List UChar) :
    (normalizeTerminators units).length + crlfCount units = units.length :=
  length_normalizeFrom false units

theorem crlfFrom_true_ge (units : List UChar) : crlfFrom false units ≤ crlfFrom true units := by
  cases units with
  | nil => exact Nat.le_refl _
  | cons c rest => simp [crlfFrom]

theorem crlfFrom_append_le (afterCr : Bool) (xs ys : List UChar) :
    crlfFrom afterCr xs + crlfCount ys ≤ crlfFrom afterCr (xs ++ ys) := by
  induction xs generalizing afterCr with
  | nil => cases afterCr <;> simp [crlfFrom, crlfCount, crlfFrom_true_ge]
  | cons c rest ih =>
    have h := ih (c = UChar.cr)
    simp only [List.cons_append, crlfFrom]
    omega

theorem crlfCount_append_le (xs ys : List UChar) :
    crlfCount xs + crlfCount ys ≤ crlfCount (xs ++ ys) :=
  crlfFrom_append_le false xs ys

theorem crlfCount_drop_le (units : List UChar) (i : Nat) :
    crlfCount (units.drop i) ≤ crlfCount units := by
  have h := crlfCount_append_le (units.take i) (units.drop i)
  rw [List.take_append_drop] at h
  omega

theorem crlfCount_pair (rest : List UChar) :
    crlfCount (UChar.cr :: UChar.nl :: rest) = 1 + crlfCount (UChar.nl :: rest) := by
  simp [crlfCount, crlfFrom]

/-- A pair at position `i` counts beyond the pairs after its first unit. -/
theorem crlfCount_drop_of_pair {units : List UChar} {i : Nat} (hi : units[i]? = some UChar.cr)
    (hi' : units[i + 1]? = some UChar.nl) :
    crlfCount (units.drop i) = 1 + crlfCount (units.drop (i + 1)) := by
  obtain ⟨h, hc⟩ := List.getElem?_eq_some_iff.mp hi
  obtain ⟨h', hn⟩ := List.getElem?_eq_some_iff.mp hi'
  rw [List.drop_eq_getElem_cons h, List.drop_eq_getElem_cons h', hc, hn, crlfCount_pair]

/-- Text without a CR LF pair is normalised unit by unit. -/
theorem normalizeFrom_of_no_crlf {afterCr : Bool} {units : List UChar}
    (h : crlfFrom afterCr units = 0) : normalizeFrom afterCr units = units.map lfOf := by
  induction units generalizing afterCr with
  | nil => rfl
  | cons c rest ih =>
    simp only [crlfFrom, Nat.add_eq_zero_iff] at h
    have hf : (afterCr && decide (c = UChar.nl)) = false := by
      cases hb : (afterCr && decide (c = UChar.nl)) <;> simp_all
    simp [normalizeFrom, hf, ih h.2]

theorem normalizeTerminators_of_no_crlf {units : List UChar} (h : crlfCount units = 0) :
    normalizeTerminators units = units.map lfOf :=
  normalizeFrom_of_no_crlf h

section FindCR

variable {units : List UChar} {lead i : Nat}

theorem findCR_eq_some (h : findCR units lead = some i) :
    lead ≤ i ∧ units[i]? = some UChar.cr ∧ ∀ j, lead ≤ j → j < i → units[j]? ≠ some UChar.cr := by
  unfold findCR at h
  rw [Option.map_eq_some_iff] at h
  obtain ⟨k, hk, rfl⟩ := h
  rw [List.findIdx?_eq_some_iff_getElem] at hk
  obtain ⟨hlt, hcr, hmin⟩ := hk
  simp only [List.length_drop] at hlt
  refine ⟨Nat.le_add_right _ _, ?_, ?_⟩
  · simp only [List.getElem_drop, decide_eq_true_eq] at hcr
    rw [List.getElem?_eq_getElem (by omega), hcr]
  · intro j hj hji hcrj
    have hm := hmin (j - lead) (by omega)
    simp only [List.getElem_drop, decide_eq_true_eq] at hm
    obtain ⟨hjl, hval⟩ := List.getElem?_eq_some_iff.mp hcrj
    apply hm
    rw [← hval]
    congr 1
    omega

theorem findCR_eq_none (h : findCR units lead = none) {j : Nat} (hj : lead ≤ j) :
    units[j]? ≠ some UChar.cr := by
  unfold findCR at h
  rw [Option.map_eq_none_iff, List.findIdx?_eq_none_iff] at h
  intro hcr
  have hmem : UChar.cr ∈ units.drop lead := by
    rw [List.mem_iff_getElem?]
    exact ⟨j - lead,
      by rw [List.getElem?_drop]; simpa [show lead + (j - lead) = j by omega] using hcr⟩
  simpa using h _ hmem

end FindCR

/-- The conversion of lone carriage returns stops at a CR LF pair and leaves what follows as it
was. -/
theorem convertLoneCR_eq_some {n lead i : Nat} {units units' : List UChar}
    (h : convertLoneCR n units lead = (units', some i)) :
    lead ≤ i ∧ units'.length = units.length ∧ units'.drop i = units.drop i ∧
      units[i]? = some UChar.cr ∧ units[i + 1]? = some UChar.nl := by
  induction n generalizing units lead with
  | zero => simp [convertLoneCR] at h
  | succ n ih =>
    rw [convertLoneCR] at h
    split at h
    · simp at h
    · rename_i j hj
      obtain ⟨hle, hcr, _⟩ := findCR_eq_some hj
      split at h
      · rename_i hnl
        simp only [Prod.mk.injEq, Option.some.injEq] at h
        obtain ⟨rfl, rfl⟩ := h
        exact ⟨hle, rfl, rfl, hcr, hnl⟩
      · rename_i hnl
        obtain ⟨hle', hlen, hdrop, hcr', hnl'⟩ := ih h
        have hne : j ≠ i := by
          intro he
          subst he
          rw [List.getElem?_set_self (List.getElem?_eq_some_iff.mp hcr).1] at hcr'
          exact absurd hcr' (by decide)
        have hlt : j < i := by omega
        rw [List.getElem?_set_ne (by omega)] at hcr' hnl'
        refine ⟨by omega, by simpa using hlen, ?_, hcr', hnl'⟩
        rw [hdrop, List.drop_set_of_lt hlt]

theorem length_convertLoneCR (n lead : Nat) (units : List UChar) :
    (convertLoneCR n units lead).1.length = units.length := by
  induction n generalizing units lead with
  | zero => rfl
  | succ n ih =>
    rw [convertLoneCR]
    split
    · rfl
    · split
      · rfl
      · rw [ih, List.length_set]

theorem length_memmove (units : List UChar) {dest src length : Nat} (hds : dest ≤ src)
    (h : src + length ≤ units.length) : (memmove units dest src length).length = units.length := by
  simp only [memmove, List.length_append, List.length_take, List.length_drop]
  omega

theorem drop_memmove {units : List UChar} {dest src length i : Nat} (hds : dest ≤ src)
    (h : src + length ≤ units.length) (hi : dest + length ≤ i) :
    (memmove units dest src length).drop i = units.drop i := by
  have hl : (units.take dest ++ (units.drop src).take length).length = dest + length := by
    simp only [List.length_append, List.length_take, List.length_drop]
    omega
  rw [memmove, List.drop_append, hl, List.drop_eq_nil_of_le (by omega), List.nil_append,
    List.drop_drop]
  congr 1
  omega

/-- The compacting loop discounts a unit for each pair that follows, never one for the pair it
starts at. -/
theorem compact_spec (n : Nat) (units : List UChar) (nread : Nat) {dest lead : Nat}
    (hdl : dest ≤ lead) (hl : lead < units.length) :
    (compact n units nread dest lead).1.length = units.length ∧
      (compact n units nread dest lead).2 ≤ nread ∧
      nread ≤ (compact n units nread dest lead).2 + crlfCount (units.drop (lead + 1)) := by
  induction n generalizing units nread dest lead with
  | zero => exact ⟨rfl, Nat.le_refl _, Nat.le_add_right _ _⟩
  | succ n ih =>
    rw [compact]
    split
    · rename_i units' hconv
      have hlen : units'.length = units.length := by
        simpa [hconv] using
          length_convertLoneCR units.length (lead + 1) units
      refine ⟨?_, Nat.le_refl _, Nat.le_add_right _ _⟩
      rw [length_memmove _ (by omega) (by omega), hlen]
    · rename_i units' i hconv
      obtain ⟨hle, hlen, hdrop, hcr, hnl⟩ := convertLoneCR_eq_some hconv
      have hi : i < units.length := (List.getElem?_eq_some_iff.mp hcr).1
      have hml := length_memmove units' (show dest ≤ lead + 1 by omega)
        (show lead + 1 + (i - (lead + 1)) ≤ units'.length by omega)
      have hmd : (memmove units' dest (lead + 1) (i - (lead + 1))).drop (i + 1)
          = units.drop (i + 1) := by
        rw [drop_memmove (by omega) (by omega) (by omega), ← List.drop_drop, hdrop, List.drop_drop]
      have hcount : 1 + crlfCount (units.drop (i + 1)) ≤ crlfCount (units.drop (lead + 1)) := by
        rw [← crlfCount_drop_of_pair hcr hnl]
        have := crlfCount_drop_le (units.drop (lead + 1)) (i - (lead + 1))
        rwa [List.drop_drop, show lead + 1 + (i - (lead + 1)) = i by omega] at this
      obtain ⟨h1, h2, h3⟩ := ih (memmove units' dest (lead + 1) (i - (lead + 1))) (nread - 1)
        (show dest + (i - (lead + 1)) ≤ i by omega) (by omega)
      rw [hmd] at h3
      dsimp only
      exact ⟨by omega, by omega, by omega⟩

theorem crlfFrom_eq_zero_iff {afterCr : Bool} {units : List UChar} :
    crlfFrom afterCr units = 0 ↔ ¬ (afterCr = true ∧ units[0]? = some UChar.nl) ∧
      ∀ i, units[i]? = some UChar.cr → units[i + 1]? ≠ some UChar.nl := by
  induction units generalizing afterCr with
  | nil => simp [crlfFrom]
  | cons c rest ih =>
    rw [crlfFrom, Nat.add_eq_zero_iff, ih]
    constructor
    · rintro ⟨h, h0, hrest⟩
      refine ⟨by simpa using h, ?_⟩
      rintro (_ | i) hi
      · simpa using fun hn => h0 ⟨by simpa using hi, by simpa using hn⟩
      · simpa using hrest i (by simpa using hi)
    · rintro ⟨h, hall⟩
      refine ⟨by simpa using h, ?_, ?_⟩
      · rintro ⟨hc, hn⟩
        exact hall 0 (by simpa using hc) (by simpa using hn)
      · intro i hi
        simpa using hall (i + 1) (by simpa using hi)

theorem crlfCount_eq_zero_iff {units : List UChar} : crlfCount units = 0 ↔
    ∀ i, units[i]? = some UChar.cr → units[i + 1]? ≠ some UChar.nl := by
  simp [crlfCount, crlfFrom_eq_zero_iff]

theorem map_lfOf_of_no_cr {units : List UChar} (h : ∀ j : Nat, units[j]? ≠ some UChar.cr) :
    units.map lfOf = units := by
  rw [List.map_congr_left (g := id), List.map_id]
  intro c hc
  obtain ⟨j, hj⟩ := List.mem_iff_getElem?.mp hc
  have hne : c ≠ UChar.cr := by
    rintro rfl
    exact h j hj
  simp [lfOf, hne]

/-- Without a CR LF pair the conversion turns every carriage return into a line feed. -/
theorem convertLoneCR_of_no_crlf {n : Nat} (lead : Nat) {units : List UChar}
    (hc : crlfCount units = 0) (hlead : ∀ j, j < lead → units[j]? ≠ some UChar.cr)
    (hn : units.count UChar.cr ≤ n) :
    convertLoneCR n units lead = (units.map lfOf, none) := by
  induction n generalizing units lead with
  | zero =>
    have hno : UChar.cr ∉ units := List.count_eq_zero.mp (Nat.le_zero.mp hn)
    rw [convertLoneCR, map_lfOf_of_no_cr]
    intro j hj
    exact hno (List.mem_of_getElem? hj)
  | succ n ih =>
    rw [convertLoneCR]
    split
    · rename_i hnone
      rw [map_lfOf_of_no_cr]
      intro j
      by_cases hj : j < lead
      · exact hlead j hj
      · exact findCR_eq_none hnone (by omega)
    · rename_i j hj
      obtain ⟨hle, hcr, hmin⟩ := findCR_eq_some hj
      obtain ⟨hjl, hjv⟩ := List.getElem?_eq_some_iff.mp hcr
      have hbefore : ∀ i, i < j → units[i]? ≠ some UChar.cr := by
        intro i hi
        by_cases hil : i < lead
        · exact hlead i hil
        · exact hmin i (by omega) hi
      rw [if_neg (crlfCount_eq_zero_iff.mp hc j hcr), ih]
      · rw [List.map_set]
        congr 1
        apply List.ext_getElem?
        intro i
        by_cases hij : j = i
        · subst hij
          simp [hjl, hjv, lfOf]
        · rw [List.getElem?_set_ne hij]
      · rw [crlfCount_eq_zero_iff]
        intro i hi
        by_cases hij : j = i
        · subst hij
          rw [List.getElem?_set_self hjl] at hi
          exact absurd hi (by decide)
        · rw [List.getElem?_set_ne hij] at hi
          by_cases hij' : j = i + 1
          · exact absurd hi (hbefore i (by omega))
          · rw [List.getElem?_set_ne hij']
            exact crlfCount_eq_zero_iff.mp hc i hi
      · intro i hi
        rw [List.getElem?_set_ne (by omega)]
        exact hbefore i hi
      · rw [List.count_set hjl, hjv]
        have hd : (UChar.nl == UChar.cr) = false := by decide
        simp only [hd, beq_self_eq_true, if_true, Bool.false_eq_true, if_false]
        omega

/-- What a chunk delivers: the units kept of its conversion. -/
def delivered (chunk : List UChar) : List UChar :=
  (convertTerminators chunk).1.take (convertTerminators chunk).2

theorem delivered_of_no_crlf {chunk : List UChar} (h : crlfCount chunk = 0) :
    delivered chunk = chunk.map lfOf := by
  have hconv := convertLoneCR_of_no_crlf 0 h (by intro j hj; omega) List.count_le_length
  rw [delivered, convertTerminators, hconv]
  exact List.take_of_length_le (by simp)

theorem convertTerminators_length (chunk : List UChar) :
    (convertTerminators chunk).1.length = chunk.length ∧
      (convertTerminators chunk).2 ≤ chunk.length := by
  rw [convertTerminators]
  split
  · rename_i units hconv
    have hlen := length_convertLoneCR chunk.length 0 chunk
    rw [hconv] at hlen
    exact ⟨hlen, Nat.le_refl _⟩
  · rename_i units i hconv
    obtain ⟨_, hlen, _, hcr, _⟩ := convertLoneCR_eq_some hconv
    have hi := (List.getElem?_eq_some_iff.mp hcr).1
    obtain ⟨h1, h2, _⟩ := compact_spec chunk.length units chunk.length (Nat.le_refl i) (by omega)
    exact ⟨by rw [h1, hlen], h2⟩

/-- The conversion drops one unit fewer than the chunk has CR LF pairs. -/
theorem length_delivered_ge (chunk : List UChar) :
    chunk.length ≤ (delivered chunk).length + (crlfCount chunk - 1) := by
  obtain ⟨hlen, hle⟩ := convertTerminators_length chunk
  have hd : (delivered chunk).length = (convertTerminators chunk).2 := by
    rw [delivered, List.length_take]
    omega
  rw [hd, convertTerminators]
  split
  · simp
  · rename_i units i hconv
    obtain ⟨_, hlen, hdrop, hcr, hnl⟩ := convertLoneCR_eq_some hconv
    have hi := (List.getElem?_eq_some_iff.mp hcr).1
    obtain ⟨_, _, h3⟩ := compact_spec chunk.length units chunk.length (Nat.le_refl i) (by omega)
    have hd1 : units.drop (i + 1) = chunk.drop (i + 1) := by
      rw [← List.drop_drop, hdrop, List.drop_drop]
    have hc1 := crlfCount_drop_of_pair hcr hnl
    have hc2 := crlfCount_drop_le chunk i
    rw [hd1] at h3
    omega

theorem crlfFrom_le_length (afterCr : Bool) (units : List UChar) :
    crlfFrom afterCr units ≤ units.length := by
  induction units generalizing afterCr with
  | nil => exact Nat.le_refl _
  | cons c rest ih =>
    have hrest := ih (decide (c = UChar.cr))
    rw [crlfFrom, List.length_cons]
    split <;> omega

/-- The conversion leaves what comes before the first carriage return as it was. -/
theorem take_convertLoneCR {n lead k : Nat} {units : List UChar}
    (hk : ∀ j, lead ≤ j → j < k → units[j]? ≠ some UChar.cr) :
    (convertLoneCR n units lead).1.take k = units.take k := by
  induction n generalizing units lead with
  | zero => rfl
  | succ n ih =>
    rw [convertLoneCR]
    split
    · rfl
    · rename_i i hi
      obtain ⟨hle, hcr, _⟩ := findCR_eq_some hi
      have hki : k ≤ i := by
        by_contra hlt
        exact hk i hle (by omega) hcr
      split
      · rfl
      · rw [ih fun j hj hjk => by omega, List.take_set_of_le hki]

theorem take_memmove {units : List UChar} {dest src length k : Nat} (hk : k ≤ dest)
    (hd : dest ≤ units.length) :
    (memmove units dest src length).take k = units.take k := by
  rw [memmove, List.append_assoc, List.take_append_of_le_length (by simp; omega), List.take_take,
    Nat.min_eq_left hk]

theorem take_compact {n nread dest lead k : Nat} {units : List UChar} (hk : k ≤ dest)
    (hdl : dest ≤ lead) (hl : lead < units.length) :
    (compact n units nread dest lead).1.take k = units.take k := by
  induction n generalizing units nread dest lead with
  | zero => rfl
  | succ n ih =>
    have hconvert : (convertLoneCR units.length units (lead + 1)).1.take k = units.take k :=
      take_convertLoneCR fun j hj hjk => by omega
    rw [compact]
    split
    · rename_i units' hconv
      rw [hconv] at hconvert
      have hlen : units'.length = units.length := by
        simpa [hconv] using length_convertLoneCR units.length (lead + 1) units
      rw [take_memmove hk (by omega)]
      exact hconvert
    · rename_i units' i hconv
      rw [hconv] at hconvert
      obtain ⟨hle, hlen, _, hcr, _⟩ := convertLoneCR_eq_some hconv
      have hi := (List.getElem?_eq_some_iff.mp hcr).1
      have hml := length_memmove units' (show dest ≤ lead + 1 by omega)
        (show lead + 1 + (i - (lead + 1)) ≤ units'.length by omega)
      dsimp only
      rw [ih (by omega) (by omega) (by omega), take_memmove hk (by omega)]
      exact hconvert

/-- What comes before the first carriage return of a chunk is delivered as it is. -/
theorem prefix_delivered {front : List UChar} (h : UChar.cr ∉ front) (back : List UChar) :
    front <+: delivered (front ++ back) := by
  have hfront : (front ++ back).take front.length = front := List.take_left
  have hno : ∀ j, 0 ≤ j → j < front.length → (front ++ back)[j]? ≠ some UChar.cr := by
    intro j _ hj hcr
    rw [List.getElem?_append_left hj] at hcr
    exact h (List.mem_of_getElem? hcr)
  have hconvert := take_convertLoneCR (n := (front ++ back).length) hno
  have hkept : (convertTerminators (front ++ back)).1.take front.length = front
      ∧ front.length ≤ (convertTerminators (front ++ back)).2 := by
    rw [convertTerminators]
    split
    · rename_i units hconv
      rw [hconv] at hconvert
      exact ⟨hconvert.trans hfront, by simp⟩
    · rename_i units i hconv
      rw [hconv] at hconvert
      obtain ⟨_, hlen, hdrop, hcr, _⟩ := convertLoneCR_eq_some hconv
      have hi := (List.getElem?_eq_some_iff.mp hcr).1
      have hle : front.length ≤ i := by
        by_contra hlt
        exact hno i (Nat.zero_le _) (by omega) hcr
      obtain ⟨_, _, h3⟩ :=
        compact_spec (front ++ back).length units (front ++ back).length (Nat.le_refl i) (by omega)
      have hcount := crlfFrom_le_length false (units.drop (i + 1))
      rw [List.length_drop] at hcount
      refine ⟨?_, ?_⟩
      · rw [take_compact hle (Nat.le_refl i) (by omega)]
        exact hconvert.trans hfront
      · unfold crlfCount at h3
        omega
  rw [delivered, List.prefix_iff_eq_take, List.take_take, Nat.min_eq_left hkept.2]
  exact hkept.1.symm

end CifApi
