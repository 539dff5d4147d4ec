import CifApi.Linguist.TextField
import CifApi.Writer.TextSegments

/-! Where the linguist program folds lines. -/
namespace CifApi.Linguist

section Search

variable {category : Int → Nat} {best : Int × Nat} {diffs : List Int} {window : Nat}

/-- What is found, if anything is, is in the window, and not of category 0. -/
def Found (category : Int → Nat) (window : Nat) (best : Int × Nat) : Prop :=
  best.2 ≠ 0 → -(window : Int) ≤ best.1 ∧ best.1 ≤ window ∧ category best.1 ≠ 0

theorem Found.searchBottom (h : Found category window best)
    (hdiffs : ∀ diff ∈ diffs, -(window : Int) ≤ diff ∧ diff ≤ window) :
    Found category window (searchBottom category diffs best) := by
  induction diffs generalizing best with
  | nil => exact h
  | cons diff diffs ih =>
    have hdiff := hdiffs diff (List.mem_cons_self ..)
    have hrest := fun d hd => hdiffs d (List.mem_cons_of_mem _ hd)
    rw [Linguist.searchBottom]
    split
    · exact ih (fun hne => ⟨hdiff.1, hdiff.2, hne⟩) hrest
    · exact ih h hrest

theorem Found.searchTop (h : Found category window best)
    (hdiffs : ∀ diff ∈ diffs, -(window : Int) ≤ diff ∧ diff ≤ window) :
    Found category window (searchTop category diffs best) := by
  induction diffs generalizing best with
  | nil => exact h
  | cons diff diffs ih =>
    have hdiff := hdiffs diff (List.mem_cons_self ..)
    have hrest := fun d hd => hdiffs d (List.mem_cons_of_mem _ hd)
    rw [Linguist.searchTop]
    split
    · rename_i hthree
      exact fun _ => ⟨hdiff.1, hdiff.2, by simp [hthree]⟩
    · split
      · exact ih (fun hne => ⟨hdiff.1, hdiff.2, hne⟩) hrest
      · split
        · exact ih (fun hne => ⟨hdiff.1, hdiff.2, hne⟩) hrest
        · exact ih h hrest

theorem searchBottom_eq_zero_iff : (searchBottom category diffs best).2 = 0
    ↔ best.2 = 0 ∧ ∀ diff ∈ diffs, category diff = 0 := by
  induction diffs generalizing best with
  | nil => simp [searchBottom]
  | cons diff diffs ih =>
    rw [searchBottom, List.forall_mem_cons]
    split
    · rename_i hle
      rw [ih]
      constructor
      · exact fun ⟨hzero, hrest⟩ => ⟨Nat.le_zero.mp (hzero ▸ hle), hzero, hrest⟩
      · exact fun ⟨_, hzero, hrest⟩ => ⟨hzero, hrest⟩
    · rename_i hlt
      rw [ih]
      constructor
      · exact fun ⟨hzero, _⟩ => absurd (hzero ▸ Nat.zero_le _) hlt
      · exact fun ⟨hzero, _, hrest⟩ => ⟨hzero, hrest⟩

/-- The categories up to the first that breaks off the search are 0. -/
def Unbroken (category : Int → Nat) : List Int → Prop
  | [] => True
  | diff :: diffs => category diff = 3 ∨ category diff = 0 ∧ Unbroken category diffs

theorem searchTop_eq_zero_iff :
    (searchTop category diffs best).2 = 0 ↔ best.2 = 0 ∧ Unbroken category diffs := by
  induction diffs generalizing best with
  | nil => simp [searchTop, Unbroken]
  | cons diff diffs ih =>
    rw [searchTop, Unbroken]
    split
    · simp_all
    · rename_i hthree
      simp only [hthree, false_or]
      split
      · rw [ih]
        simp only
        omega
      · split
        · rename_i heq
          simp only [Bool.and_eq_true, decide_eq_true_eq] at heq
          rw [ih]
          simp only [heq.1]
          tauto
        · rw [ih]
          constructor
          · exact fun ⟨hzero, hrest⟩ => ⟨hzero, by omega, hrest⟩
          · exact fun ⟨hzero, _, hrest⟩ => ⟨hzero, hrest⟩

theorem unbroken_iff : Unbroken category diffs ↔ ∀ (i : Nat) diff, diffs[i]? = some diff →
    (∀ j < i, ∀ e, diffs[j]? = some e → category e = 0) → category diff = 0
      ∨ category diff = 3 := by
  induction diffs with
  | nil => simp [Unbroken]
  | cons diff diffs ih =>
    rw [Unbroken, ih]
    constructor
    · rintro h i d hd hbefore
      cases i with
      | zero =>
        obtain rfl : diff = d := by simpa using hd
        exact (h.imp_right And.left).symm
      | succ i =>
        rcases h with hthree | ⟨hzero, hrest⟩
        · have hfirst := hbefore 0 (by omega) diff rfl
          omega
        · exact hrest i d (by simpa using hd) fun j hj e he =>
            hbefore (j + 1) (by omega) e (by simpa using he)
    · intro h
      rcases h 0 diff rfl (by simp) with hzero | hthree
      · refine .inr ⟨hzero, fun i d hd hbefore => h (i + 1) d (by simpa using hd) fun j hj e he =>
          ?_⟩
        cases j with
        | zero =>
          obtain rfl : diff = e := by simpa using he
          exact hzero
        | succ j => exact hbefore j (by omega) e (by simpa using he)
      · exact .inl hthree

end Search

section FoldLength

variable {line : UStr} {target window : Nat} {allowBeforeSemi : Bool}

/-- No place in the window is found: those of the bottom half are no good, nor are those of the top
half up to the first that breaks off the search. -/
def Quiet (line : UStr) (allowBeforeSemi : Bool) (target window : Nat) : Prop :=
  (∀ len, target - window ≤ len → len < target → foldCategory line allowBeforeSemi len = 0)
  ∧ ∀ len, target ≤ len → len ≤ target + window →
    (∀ l, target ≤ l → l < len → foldCategory line allowBeforeSemi l = 0) →
    foldCategory line allowBeforeSemi len = 0 ∨ foldCategory line allowBeforeSemi len = 3

theorem found_searchWindow :
    Found (fun diff => foldCategory line allowBeforeSemi (target + diff).toNat) window
      (searchWindow line target window allowBeforeSemi) := by
  refine Found.searchTop (Found.searchBottom (fun hne => absurd rfl hne) ?_) ?_
  · intro diff hdiff
    simp only [List.mem_map, List.mem_range] at hdiff
    obtain ⟨i, hi, rfl⟩ := hdiff
    omega
  · intro diff hdiff
    simp only [List.mem_map, List.mem_range] at hdiff
    obtain ⟨i, hi, rfl⟩ := hdiff
    omega

theorem searchWindow_eq_zero_iff (h : window < target) :
    (searchWindow line target window allowBeforeSemi).2 = 0 ↔
      Quiet line allowBeforeSemi target window := by
  have hplace : ∀ len : Nat, ((target : Int) + (len - target)).toNat = len := by omega
  unfold searchWindow
  rw [searchTop_eq_zero_iff, searchBottom_eq_zero_iff, unbroken_iff]
  simp only [true_and]
  refine and_congr ?_ ?_
  · constructor
    · intro hzero len hlow hhigh
      have hmem := hzero ((len : Int) - target) (by
        simp only [List.mem_map, List.mem_range]
        exact ⟨len - (target - window), by omega, by omega⟩)
      rwa [hplace] at hmem
    · intro hzero diff hdiff
      simp only [List.mem_map, List.mem_range] at hdiff
      obtain ⟨i, hi, rfl⟩ := hdiff
      exact hzero _ (by omega) (by omega)
  · have hget : ∀ (i : Nat) (d : Int),
        ((List.range (window + 1)).map fun i : Nat => (i : Int))[i]? = some d ↔ i ≤ window
        ∧ d = i := by
      intro i d
      simp only [List.getElem?_map, Option.map_eq_some_iff, List.getElem?_eq_some_iff,
        List.getElem_range, List.length_range]
      constructor
      · rintro ⟨_, ⟨hi, rfl⟩, rfl⟩
        exact ⟨by omega, rfl⟩
      · rintro ⟨hi, rfl⟩
        exact ⟨i, ⟨by omega, rfl⟩, rfl⟩
    have htop : ∀ i : Nat, ((target : Int) + i).toNat = target + i := by omega
    simp only [hget]
    constructor
    · intro hunbroken len hlow hhigh hbefore
      have hlen := hunbroken (len - target) _ ⟨by omega, rfl⟩ (by
        rintro j hj _ ⟨_, rfl⟩
        rw [htop]
        exact hbefore _ (by omega) (by omega))
      rwa [htop, Nat.add_sub_cancel' hlow] at hlen
    · rintro hquiet i _ ⟨hi, rfl⟩ hbefore
      rw [htop]
      refine hquiet _ (by omega) (by omega) fun l hlow hl => ?_
      have hzero := hbefore (l - target) (by omega) _ ⟨by omega, rfl⟩
      rwa [htop, Nat.add_sub_cancel' hlow] at hzero

/-- The line is taken whole, or folded where it can be, or not at all. -/
theorem computeFoldLength_cases (h : window < target) :
    (computeFoldLength line target window allowBeforeSemi = line.length
      ∧ line.length ≤ target + window)
    ∨ (target + window < line.length ∧ ¬ Quiet line allowBeforeSemi target window
      ∧ target - window ≤ computeFoldLength line target window allowBeforeSemi
      ∧ computeFoldLength line target window allowBeforeSemi ≤ target + window
      ∧ foldCategory line allowBeforeSemi (computeFoldLength line target window allowBeforeSemi)
        ≠ 0)
    ∨ (target + window < line.length ∧ Quiet line allowBeforeSemi target window
      ∧ 0 < computeFoldLength line target window allowBeforeSemi
      ∧ computeFoldLength line target window allowBeforeSemi < target - window
      ∧ line.getD (computeFoldLength line target window allowBeforeSemi) 0 ≠ UChar.semi)
    ∨ (target + window < line.length ∧ Quiet line allowBeforeSemi target window
      ∧ computeFoldLength line target window allowBeforeSemi = 0
      ∧ ∀ len, 0 < len → len < target - window → line.getD len 0 = UChar.semi) := by
  by_cases hlong : line.length ≤ target + window
  · exact .inl ⟨by simp [computeFoldLength, hlong], hlong⟩
  · have hlt : target + window < line.length := Nat.not_le.mp hlong
    have hfound := @found_searchWindow line target window allowBeforeSemi
    have hquiet := @searchWindow_eq_zero_iff line target window allowBeforeSemi h
    unfold computeFoldLength
    simp only [hlong, if_false]
    generalize searchWindow line target window allowBeforeSemi = best at hfound hquiet ⊢
    by_cases hzero : best.2 = 0
    · rw [if_neg (not_not_intro hzero)]
      have hq := hquiet.mp hzero
      cases hfind : (List.range' 1 (target - (window + 1))).reverse.find? fun len =>
          decide (line.getD len 0 ≠ UChar.semi) with
      | some len =>
        have hmem := List.mem_of_find?_eq_some hfind
        rw [List.mem_reverse, List.mem_range'_1] at hmem
        have hsemi := List.find?_some hfind
        simp only [decide_eq_true_eq] at hsemi
        exact .inr (.inr (.inl ⟨hlt, hq, hmem.1, by simp only [Option.getD_some]; omega, hsemi⟩))
      | none =>
        rw [List.find?_eq_none] at hfind
        refine .inr (.inr (.inr ⟨hlt, hq, rfl, fun len hpos hlen => ?_⟩))
        simpa using hfind len (List.mem_reverse.mpr (List.mem_range'_1.mpr ⟨hpos, by omega⟩))
    · rw [if_pos hzero]
      obtain ⟨hlow, hhigh, hcategory⟩ := hfound hzero
      exact .inr (.inl ⟨hlt, fun hq => hzero (hquiet.mpr hq), by omega, by omega, hcategory⟩)

theorem foldCategory_semi {len : Nat} (h : line.getD len 0 = UChar.semi) :
    foldCategory line false len = 0 := by
  unfold foldCategory
  rw [h]
  rfl

theorem foldCategory_append (t s : UStr) (allowBeforeSemi : Bool) {len : Nat} (h : t.length < len) :
    foldCategory (t ++ s) allowBeforeSemi len
      = foldCategory s allowBeforeSemi (len - t.length) := by
  have hget : ∀ k, t.length ≤ k → (t ++ s).getD k 0 = s.getD (k - t.length) 0 := by
    intro k hk
    simp [List.getElem?_append_right hk]
  have hpred : len - t.length - 1 = len - 1 - t.length := by omega
  unfold foldCategory blankAt
  rw [hget len (Nat.le_of_lt h), hget (len - 1) (by omega), hpred]

/-- Where it does not matter what follows, there is a place in every window. -/
theorem not_quiet_true (h : window < target) (hwindow : 2 ≤ window) :
    ¬ Quiet line true target window := by
  rintro ⟨hbottom, _⟩
  have hfirst := hbottom (target - 2) (by omega) (by omega)
  have hsecond := hbottom (target - 2 + 1) (by omega) (by omega)
  simp only [foldCategory, Bool.true_or, if_true, Nat.add_sub_cancel] at hfirst hsecond
  cases hblank : blankAt line (target - 2) with
  | true => simp [hblank] at hsecond
  | false => simp [hblank] at hfirst

end FoldLength

/-- A line that cannot be folded without a prefix: but for its first unit, semicolons up to a window
in which no place is found. -/
structure Stuck (line : UStr) : Prop where
  long : foldTarget false + foldWindow < line.length
  quiet : Quiet line false (foldTarget false) foldWindow
  semis : ∀ len, 0 < len → len < foldTarget false - foldWindow → line.getD len 0 = UChar.semi

/-- A line that ends in what cannot be folded is folded no later than where that begins. -/
theorem Stuck.computeFoldLength_le {s : UStr} (h : Stuck s) (t : UStr) :
    computeFoldLength (t ++ s) (foldTarget false) foldWindow false ≤ t.length := by
  have htarget : foldTarget false = 2039 := rfl
  have hwindow : foldWindow = 8 := rfl
  have hlong := h.long
  have hsemis := h.semis
  obtain ⟨hbottom, htop⟩ := h.quiet
  have hget : ∀ len, t.length < len → len - t.length < foldTarget false - foldWindow →
      (t ++ s).getD len 0 = UChar.semi := by
    intro len hlt hlen
    have hsemi := hsemis (len - t.length) (by omega) hlen
    rw [← hsemi]
    simp [List.getElem?_append_right (Nat.le_of_lt hlt)]
  rw [htarget, hwindow] at *
  rcases @computeFoldLength_cases (t ++ s) 2039 8 false (by decide) with
    ⟨_, hshort⟩ | ⟨_, hnot, hlow, hhigh, hcategory⟩ | ⟨_, _, hpos, hlow, hsemi⟩ | ⟨_, _, hzero, _⟩
  · simp only [List.length_append] at hshort
    omega
  · by_contra hgt
    by_cases hnear : computeFoldLength (t ++ s) 2039 8 false - t.length < 2039 - 8
    · exact hcategory (foldCategory_semi (hget _ (by omega) hnear))
    · refine hnot ⟨fun len hlen hlt => ?_, fun len hlen hle hbefore => ?_⟩
      · by_cases hsemi : len - t.length < 2039 - 8
        · exact foldCategory_semi (hget _ (by omega) hsemi)
        · rw [foldCategory_append t s false (by omega)]
          exact hbottom _ (by omega) (by omega)
      · by_cases hsemi : len - t.length < 2039 - 8
        · exact .inl (foldCategory_semi (hget _ (by omega) hsemi))
        · rw [foldCategory_append t s false (by omega)]
          by_cases hhalf : len - t.length < 2039
          · exact .inl (hbottom _ (by omega) hhalf)
          · refine htop _ (by omega) (by omega) fun l hl hlt => ?_
            have hzero := hbefore (l + t.length) (by omega) (by omega)
            rwa [foldCategory_append t s false (by omega), Nat.add_sub_cancel] at hzero
  · by_contra hgt
    exact hsemi (hget _ (by omega) (by omega))
  · omega

end CifApi.Linguist
