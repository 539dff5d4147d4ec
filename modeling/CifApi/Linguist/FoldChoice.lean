import CifApi.Linguist.FoldLength

/-! The place that `compute_fold_length` chooses: the kinds of lines for which it is a legal one. -/
namespace CifApi.Linguist

section Search

variable {category : Int → Nat} {best : Int × Nat} {diffs : List Int}

/-- What is best so far is no worse than what it was, nor than any place that has been looked at. -/
structure Beats (category : Int → Nat) (diffs : List Int) (best found : Int × Nat) : Prop where
  before : best.2 ≤ found.2
  seen : ∀ diff ∈ diffs, category diff ≤ found.2
  place : found = best ∨ found.1 ∈ diffs ∧ category found.1 = found.2

theorem beats_nil : Beats category [] best best := ⟨Nat.le_refl _, by simp, .inl rfl⟩

theorem Beats.taken {diff : Int} {found : Int × Nat} (hle : best.2 ≤ category diff)
    (h : Beats category diffs (diff, category diff) found) :
    Beats category (diff :: diffs) best found := by
  have hbefore : category diff ≤ found.2 := h.before
  refine ⟨Nat.le_trans hle hbefore, ?_, ?_⟩
  · intro d hd
    rcases List.mem_cons.mp hd with rfl | hd
    · exact hbefore
    · exact h.seen d hd
  · rcases h.place with rfl | ⟨hmem, hcategory⟩
    · exact .inr ⟨List.mem_cons_self .., rfl⟩
    · exact .inr ⟨List.mem_cons_of_mem _ hmem, hcategory⟩

theorem Beats.passed {diff : Int} {found : Int × Nat} (hle : category diff ≤ best.2)
    (h : Beats category diffs best found) : Beats category (diff :: diffs) best found := by
  refine ⟨h.before, ?_, ?_⟩
  · intro d hd
    rcases List.mem_cons.mp hd with rfl | hd
    · exact Nat.le_trans hle h.before
    · exact h.seen d hd
  · rcases h.place with rfl | ⟨hmem, hcategory⟩
    · exact .inl rfl
    · exact .inr ⟨List.mem_cons_of_mem _ hmem, hcategory⟩

theorem beats_searchBottom : Beats category diffs best (searchBottom category diffs best) := by
  induction diffs generalizing best with
  | nil => exact beats_nil
  | cons diff diffs ih =>
    rw [searchBottom]
    split
    · exact ih.taken ‹_›
    · exact ih.passed (Nat.le_of_not_le ‹_›)

/-- A search that does not break off finds what is best. -/
theorem beats_searchTop :
    category (searchTop category diffs best).1 = 3 ∧ (searchTop category diffs best).1 ∈ diffs
    ∨ Beats category diffs best (searchTop category diffs best) := by
  induction diffs generalizing best with
  | nil => exact .inr beats_nil
  | cons diff diffs ih =>
    rw [searchTop]
    split
    · exact .inl ⟨‹_›, List.mem_cons_self ..⟩
    · split
      · rename_i hlt
        refine ih.imp (fun h => ⟨h.1, List.mem_cons_of_mem _ h.2⟩) fun h =>
          h.taken (Nat.le_of_lt hlt)
      · rename_i hle
        split
        · rename_i htie
          simp only [Bool.and_eq_true, decide_eq_true_eq] at htie
          exact ih.imp (fun h => ⟨h.1, List.mem_cons_of_mem _ h.2⟩) fun h =>
            h.taken (Nat.le_of_eq htie.1.symm)
        · exact ih.imp (fun h => ⟨h.1, List.mem_cons_of_mem _ h.2⟩) fun h =>
            h.passed (Nat.le_of_not_lt hle)

/-- The bottom half keeps the last of the best places. -/
theorem searchBottom_last (hsorted : diffs.Pairwise (· < ·)) (hbest : ∀ diff ∈ diffs, best.1 < diff)
    {diff : Int} (hdiff : diff ∈ diffs)
    (hcategory : category diff = (searchBottom category diffs best).2) :
    diff ≤ (searchBottom category diffs best).1 := by
  induction diffs generalizing best with
  | nil => cases hdiff
  | cons first diffs ih =>
    obtain ⟨hfirst, hrest⟩ := List.pairwise_cons.mp hsorted
    rw [searchBottom] at hcategory ⊢
    split at hcategory
    · rename_i hle
      rw [if_pos hle]
      rcases List.mem_cons.mp hdiff with rfl | hdiff
      · rcases (@beats_searchBottom category (diff, category diff) diffs).place with
          heq | ⟨hmem, _⟩
        · rw [heq]
        · exact Int.le_of_lt (hfirst _ hmem)
      · exact ih hrest hfirst hdiff hcategory
    · rename_i hlt
      rw [if_neg hlt]
      rcases List.mem_cons.mp hdiff with rfl | hdiff
      · have hbefore := (@beats_searchBottom category best diffs).before
        omega
      · exact ih hrest (fun d hd => hbest d (List.mem_cons_of_mem _ hd)) hdiff hcategory

/-- A plain place is kept where all that come later are plain and beyond its mirror image. -/
theorem searchTop_kept (hbest : best.2 = 1) (hle : ∀ diff ∈ diffs, category diff ≤ 1)
    (hgt : ∀ diff ∈ diffs, -best.1 < diff) : searchTop category diffs best = best := by
  induction diffs with
  | nil => rfl
  | cons first diffs ih =>
    have hone := hle first (List.mem_cons_self ..)
    have hfar := hgt first (List.mem_cons_self ..)
    have hnot : ¬ (category first = best.2 && decide (first ≤ -best.1)) = true := by
      simp only [Bool.and_eq_true, decide_eq_true_eq]
      omega
    rw [searchTop, if_neg (by omega), if_neg (by omega), if_neg hnot]
    exact ih (fun d hd => hle d (List.mem_cons_of_mem _ hd)) fun d hd =>
      hgt d (List.mem_cons_of_mem _ hd)

/-- Where all places are plain, the top half takes its first, unless one before it is nearer. -/
theorem searchTop_first (hsorted : diffs.Pairwise (· < ·)) (hpos : ∀ diff ∈ diffs, 0 ≤ diff)
    (hle : ∀ diff ∈ diffs, category diff ≤ 1) (hbest : best.2 ≤ 1)
    (hfound : (searchTop category diffs best).2 = 1) :
    (searchTop category diffs best = best ∧ ∀ diff ∈ diffs, category diff = 1 → -best.1 < diff)
    ∨ (searchTop category diffs best).1 ∈ diffs
      ∧ (best.2 = 1 → (searchTop category diffs best).1 ≤ -best.1)
      ∧ ∀ diff ∈ diffs, category diff = 1 → (searchTop category diffs best).1 ≤ diff := by
  induction diffs generalizing best with
  | nil => exact .inl ⟨rfl, by simp⟩
  | cons first diffs ih =>
    obtain ⟨hfirst, hrest⟩ := List.pairwise_cons.mp hsorted
    have hone := hle first (List.mem_cons_self ..)
    have hzero := hpos first (List.mem_cons_self ..)
    have hpos' : ∀ diff ∈ diffs, 0 ≤ diff := fun d hd => hpos d (List.mem_cons_of_mem _ hd)
    have hle' : ∀ diff ∈ diffs, category diff ≤ 1 := fun d hd => hle d (List.mem_cons_of_mem _ hd)
    -- a first place, once taken, is kept: what comes later is not nearer
    have htaken : category first = 1 → searchTop category diffs (first, category first)
        = (first, category first) := by
      intro hcategory
      refine searchTop_kept hcategory hle' fun d hd => ?_
      have hlt := hfirst d hd
      simp only
      omega
    have hleast : ∀ diff ∈ first :: diffs, first ≤ diff := by
      intro d hd
      rcases List.mem_cons.mp hd with rfl | hd
      · exact Int.le_refl _
      · exact Int.le_of_lt (hfirst d hd)
    rw [searchTop, if_neg (by omega)] at hfound ⊢
    by_cases hlt : best.2 < category first
    · simp only [if_pos hlt]
      rw [htaken (by omega)]
      exact .inr ⟨List.mem_cons_self .., fun h => by omega, fun d hd _ => hleast d hd⟩
    · simp only [if_neg hlt] at hfound ⊢
      by_cases htie : (category first = best.2 && decide (first ≤ -best.1)) = true
      · simp only [if_pos htie] at hfound ⊢
        simp only [Bool.and_eq_true, decide_eq_true_eq] at htie
        by_cases hcategory : category first = 1
        · rw [htaken hcategory]
          exact .inr ⟨List.mem_cons_self .., fun _ => htie.2, fun d hd _ => hleast d hd⟩
        · -- no place has been found yet: where the search stands does not matter
          have hnone : category first = 0 := by omega
          rcases ih hrest hpos' hle' hone hfound with ⟨heq, hfar⟩ | ⟨hmem, _, hnear⟩
          · rw [heq] at hfound
            exact absurd hfound hcategory
          · refine .inr ⟨List.mem_cons_of_mem _ hmem, fun h => by omega, fun d hd hd1 => ?_⟩
            rcases List.mem_cons.mp hd with rfl | hd
            · exact absurd hd1 hcategory
            · exact hnear d hd hd1
      · simp only [if_neg htie] at hfound ⊢
        have hsame : category first = 1 → -best.1 < first := by
          intro hcategory
          simp only [Bool.and_eq_true, decide_eq_true_eq, not_and] at htie
          have hgt := htie (by omega)
          omega
        by_cases hcategory : category first = 1
        · have hgt := hsame hcategory
          have hall : ∀ diff ∈ first :: diffs, -best.1 < diff :=
            fun d hd => Int.lt_of_lt_of_le hgt (hleast d hd)
          refine .inl ⟨searchTop_kept (by omega) hle' fun d hd =>
            hall d (List.mem_cons_of_mem _ hd), fun d hd _ => ?_⟩
          exact hall d hd
        · refine (ih hrest hpos' hle' hbest hfound).imp (fun h => ⟨h.1, ?_⟩) fun h =>
            ⟨List.mem_cons_of_mem _ h.1, h.2.1, ?_⟩
          · intro d hd hd1
            rcases List.mem_cons.mp hd with rfl | hd
            · exact absurd hd1 hcategory
            · exact h.2 d hd hd1
          · intro d hd hd1
            rcases List.mem_cons.mp hd with rfl | hd
            · exact absurd hd1 hcategory
            · exact h.2.2 d hd hd1

/-- What a search of the window is to find: a place after a blank, or else the nearest place, the
upper of two. -/
def Nearest (category : Int → Nat) (window : Nat) (found : Int) : Prop :=
  2 ≤ category found ∨ category found = 1 ∧ ∀ diff : Int, -(window : Int) ≤ diff → diff ≤ window →
    category diff ≤ 1 ∧ (category diff = 1 → found.natAbs < diff.natAbs ∨ found.natAbs = diff.natAbs
      ∧ diff ≤ found)

theorem nearest_search {window : Nat} {bottom top : List Int}
    (hbottom : ∀ diff, diff ∈ bottom ↔ -(window : Int) ≤ diff ∧ diff < 0)
    (htop : ∀ diff, diff ∈ top ↔ 0 ≤ diff ∧ diff ≤ (window : Int))
    (hsorted : bottom.Pairwise (· < ·)) (hsorted' : top.Pairwise (· < ·))
    (hfound : (searchTop category top (searchBottom category bottom (-((window : Int) + 1), 0))).2
      ≠ 0) :
    Nearest category window
      (searchTop category top (searchBottom category bottom (-((window : Int) + 1), 0))).1 := by
  have hmid := @beats_searchBottom category (-((window : Int) + 1), 0) bottom
  have hlast := fun diff => @searchBottom_last category (-((window : Int) + 1), 0) bottom hsorted
    (fun d hd => Int.lt_of_lt_of_le (Int.neg_lt_neg (Int.lt_succ _)) ((hbottom d).mp hd).1) diff
  generalize searchBottom category bottom (-((window : Int) + 1), 0) = mid at *
  rcases @beats_searchTop category mid top with ⟨hthree, _⟩ | hbeats
  · exact .inl (by omega)
  have hcategory : category (searchTop category top mid).1 = (searchTop category top mid).2 := by
    rcases hbeats.place with heq | ⟨_, hc⟩
    · rw [heq] at hfound ⊢
      rcases hmid.place with hinit | ⟨_, hc⟩
      · exact absurd (by rw [hinit]) hfound
      · exact hc
    · exact hc
  by_cases hone : (searchTop category top mid).2 = 1
  · have hmidle : mid.2 ≤ 1 := hone ▸ hbeats.before
    have htople : ∀ diff ∈ top, category diff ≤ 1 := fun d hd => hone ▸ hbeats.seen d hd
    refine .inr ⟨hcategory.trans hone, fun diff hle hge => ?_⟩
    by_cases hneg : diff < 0
    · have hb := (hbottom diff).mpr ⟨hle, hneg⟩
      have hseen := hmid.seen diff hb
      refine ⟨Nat.le_trans hseen hmidle, fun hplain => ?_⟩
      have hmidone : mid.2 = 1 := by omega
      have hbefore := hlast diff hb (hplain.trans hmidone.symm)
      rcases searchTop_first hsorted' (fun d hd => ((htop d).mp hd).1) htople hmidle hone with
        ⟨heq, _⟩ | ⟨hmem, hmirror, _⟩
      · rw [heq]
        rcases hmid.place with hinit | ⟨hin, _⟩
        · exact absurd (by rw [heq, hinit]) hfound
        · have hrange := (hbottom _).mp hin
          omega
      · have hrange := (htop _).mp hmem
        have hnearer := hmirror hmidone
        omega
    · have ht := (htop diff).mpr ⟨by omega, hge⟩
      refine ⟨htople diff ht, fun hplain => ?_⟩
      rcases searchTop_first hsorted' (fun d hd => ((htop d).mp hd).1) htople hmidle hone with
        ⟨heq, hfar⟩ | ⟨hmem, _, hnear⟩
      · have hbeyond := hfar diff ht hplain
        rw [heq]
        rcases hmid.place with hinit | ⟨hin, _⟩
        · exact absurd (by rw [heq, hinit]) hfound
        · have hrange := (hbottom _).mp hin
          omega
      · have hrange := (htop _).mp hmem
        have hafter := hnear diff ht hplain
        omega
  · exact .inl (by omega)

end Search

section Halves

variable {window : Nat} {diff : Int}

theorem mem_bottom : diff ∈ (List.range window).map (fun i : Nat => (i : Int) - window)
    ↔ -(window : Int) ≤ diff ∧ diff < 0 := by
  simp only [List.mem_map, List.mem_range]
  exact ⟨fun ⟨i, hi, heq⟩ => by omega, fun hd => ⟨(diff + window).toNat, by omega, by omega⟩⟩

theorem mem_top : diff ∈ (List.range (window + 1)).map (fun i : Nat => (i : Int))
    ↔ 0 ≤ diff ∧ diff ≤ (window : Int) := by
  simp only [List.mem_map, List.mem_range]
  exact ⟨fun ⟨i, hi, heq⟩ => by omega, fun hd => ⟨diff.toNat, by omega, by omega⟩⟩

theorem pairwise_bottom :
    ((List.range window).map fun i : Nat => (i : Int) - window).Pairwise (· < ·) := by
  rw [List.pairwise_map]
  exact List.pairwise_lt_range.imp fun hlt => by omega

theorem pairwise_top :
    ((List.range (window + 1)).map fun i : Nat => (i : Int)).Pairwise (· < ·) := by
  rw [List.pairwise_map]
  exact List.pairwise_lt_range.imp fun hlt => by omega

end Halves

/-- What a fold of a line is to be. -/
structure LegalFold (line : UStr) (target window : Nat) (allowBeforeSemi : Bool) (len : Nat) :
    Prop where
  advances : 0 < len
  within : len ≤ line.length
  reach : len ≤ target + window
  pair : isSurrogatePair (line.getD (len - 1) 0) (line.getD len 0) = false
  semi : allowBeforeSemi = false → line.getD len 0 ≠ UChar.semi

/-- Where all places of the window are between non-blanks, or no good: the nearest that is good, the
upper of two. -/
structure NearestPlain (line : UStr) (allowBeforeSemi : Bool) (target window len : Nat) : Prop where
  low : target - window ≤ len
  high : len ≤ target + window
  plain : foldCategory line allowBeforeSemi len = 1
  alike : ∀ place, target - window ≤ place → place ≤ target + window →
    foldCategory line allowBeforeSemi place ≤ 1
  nearest : ∀ place, target - window ≤ place → place ≤ target + window →
    foldCategory line allowBeforeSemi place = 1 →
    ((len : Int) - target).natAbs < ((place : Int) - target).natAbs
      ∨ ((len : Int) - target).natAbs = ((place : Int) - target).natAbs ∧ place ≤ len

/-- The lines for which `compute_fold_length` chooses well: those that are not folded; those with a
place in the window after a blank, or whose nearest other place is not inside a surrogate pair; and,
where there is no place in the window, those that have one before it, the last of which is not
inside a surrogate pair. -/
def FoldsWell (line : UStr) (allowBeforeSemi : Bool) (target window : Nat) : Prop :=
  line.length ≤ target + window
  ∨ (¬ Quiet line allowBeforeSemi target window
    ∧ ∀ len, NearestPlain line allowBeforeSemi target window len →
    isSurrogatePair (line.getD (len - 1) 0) (line.getD len 0) = false)
  ∨ (Quiet line allowBeforeSemi target window ∧ ∃ len, 0 < len ∧ len < target - window
    ∧ line.getD len 0 ≠ UChar.semi
      ∧ (∀ place, len < place → place < target - window → line.getD place 0 = UChar.semi)
    ∧ isSurrogatePair (line.getD (len - 1) 0) (line.getD len 0) = false)

section Choice

variable {line : UStr} {target window len : Nat} {allowBeforeSemi : Bool}

theorem NearestPlain.unique {other : Nat} (h : NearestPlain line allowBeforeSemi target window len)
    (h' : NearestPlain line allowBeforeSemi target window other) : len = other := by
  have hnear := h.nearest other h'.low h'.high h'.plain
  have hnear' := h'.nearest len h.low h.high h.plain
  omega

/-- What is found in the window is a place after a blank, or the nearest other place. -/
theorem searchWindow_place (h : window < target)
    (hfound : (searchWindow line target window allowBeforeSemi).2 ≠ 0) :
    2 ≤ foldCategory line allowBeforeSemi
      (target + (searchWindow line target window allowBeforeSemi).1).toNat
    ∨ NearestPlain line allowBeforeSemi target window
        (target + (searchWindow line target window allowBeforeSemi).1).toNat := by
  obtain ⟨hlow, hhigh, _⟩ := found_searchWindow hfound
  have hat : ∀ place : Nat, ((target : Int) + ((place : Int) - target)).toNat = place := by omega
  have hcases : Nearest (fun diff => foldCategory line allowBeforeSemi (target + diff).toNat) window
      (searchWindow line target window allowBeforeSemi).1 :=
    nearest_search (fun _ => mem_bottom) (fun _ => mem_top) pairwise_bottom pairwise_top hfound
  refine hcases.imp_right fun ⟨hplain, hall⟩ => ?_
  refine ⟨by omega, by omega, hplain, fun place hle hge => ?_, fun place hle hge hone => ?_⟩
  · have halike := (hall ((place : Int) - target) (by omega) (by omega)).1
    simpa only [hat] using halike
  · have hnear :=
      (hall ((place : Int) - target) (by omega) (by omega)).2 (by simpa only [hat] using hone)
    omega

/-- No place after a blank is inside a surrogate pair. -/
theorem not_pair_of_category (h : 2 ≤ foldCategory line allowBeforeSemi len) :
    isSurrogatePair (line.getD (len - 1) 0) (line.getD len 0) = false := by
  have hblank : blankAt line (len - 1) = true := by
    by_contra hno
    unfold foldCategory at h
    rw [if_neg hno] at h
    split at h
    · split at h <;> omega
    · omega
  unfold blankAt at hblank
  simp only [Bool.or_eq_true, decide_eq_true_eq] at hblank
  rw [isSurrogatePair]
  rcases hblank with heq | heq
  · rw [heq, show isLead UChar.sp = false by decide, Bool.and_false]
  · rw [heq, show isLead UChar.tab = false by decide, Bool.and_false]

theorem semi_of_category (h : foldCategory line allowBeforeSemi len ≠ 0)
    (hallow : allowBeforeSemi = false) :
    line.getD len 0 ≠ UChar.semi := by
  intro hsemi
  subst hallow
  exact h (foldCategory_semi hsemi)

theorem legalFold_whole (hne : line ≠ []) (hshort : line.length ≤ target + window) :
    LegalFold line target window allowBeforeSemi line.length := by
  have hend : line.getD line.length 0 = 0 := by simp
  refine ⟨List.length_pos_iff.mpr hne, Nat.le_refl _, hshort, ?_, fun _ => ?_⟩
  · rw [hend]
    simp [isSurrogatePair, isTrail]
  · rw [hend]
    decide

/-- Where there is a place in the window, the one that is found is the nearest, or after a blank. -/
theorem computeFoldLength_place (h : window < target) (hlong : target + window < line.length)
    (hnot : ¬ Quiet line allowBeforeSemi target window) :
    2 ≤ foldCategory line allowBeforeSemi (computeFoldLength line target window allowBeforeSemi)
    ∨ NearestPlain line allowBeforeSemi target window
      (computeFoldLength line target window allowBeforeSemi) := by
  have hfound : (searchWindow line target window allowBeforeSemi).2 ≠ 0 :=
    fun hzero => hnot ((searchWindow_eq_zero_iff h).mp hzero)
  have heq : computeFoldLength line target window allowBeforeSemi
      = (target + (searchWindow line target window allowBeforeSemi).1).toNat := by
    unfold computeFoldLength
    simp only [if_neg (Nat.not_le.mpr hlong), if_pos hfound]
  rw [heq]
  exact searchWindow_place h hfound

theorem find?_range'_reverse (p : Nat → Bool) {n place : Nat}
    (hgt : ((List.range' 1 n).reverse.find? p).getD 0 < place) (hle : place ≤ n) :
    p place = false := by
  induction n with
  | zero => exact absurd hle (Nat.not_le.mpr hgt)
  | succ n ih =>
    rw [List.range'_concat, List.reverse_append, List.reverse_singleton, List.singleton_append,
      List.find?_cons] at hgt
    cases hlast : p (1 + 1 * n) with
    | true =>
      simp only [hlast, Option.getD_some] at hgt
      omega
    | false =>
      simp only [hlast] at hgt
      by_cases heq : place = 1 + 1 * n
      · rw [heq, hlast]
      · exact ih hgt (by omega)

/-- Where there is no place in the window, there are but semicolons after the one that is found
before it. -/
theorem computeFoldLength_before (h : window < target) (hlong : target + window < line.length)
    (hquiet : Quiet line allowBeforeSemi target window) {place : Nat}
    (hgt : computeFoldLength line target window allowBeforeSemi < place)
    (hlt : place < target - window) :
    line.getD place 0 = UChar.semi := by
  unfold computeFoldLength at hgt
  simp only [if_neg (Nat.not_le.mpr hlong), (searchWindow_eq_zero_iff h).mpr hquiet, ne_eq,
    not_true_eq_false,
    if_false] at hgt
  simpa using find?_range'_reverse _ hgt (by omega)

/-- A fold is a legal one for just the lines for which the function chooses well. -/
theorem legalFold_iff (h : window < target) (hne : line ≠ []) :
    LegalFold line target window allowBeforeSemi
      (computeFoldLength line target window allowBeforeSemi)
      ↔ FoldsWell line allowBeforeSemi target window := by
  rcases @computeFoldLength_cases line target window allowBeforeSemi h with
    ⟨heq, hshort⟩ | ⟨hlong, hnot, hlow, hhigh, hcategory⟩ | ⟨hlong, hquiet, hpos, hlow, hsemi⟩
      | ⟨hlong, hquiet, hzero, hsemis⟩
  · rw [heq]
    exact iff_of_true (legalFold_whole hne hshort) (.inl hshort)
  · have hplace := computeFoldLength_place h hlong hnot
    generalize computeFoldLength line target window allowBeforeSemi = len at *
    constructor
    · intro hlegal
      refine .inr (.inl ⟨hnot, fun other hother => ?_⟩)
      rcases hplace with htwo | hnearest
      · exact absurd (hother.alike len hlow hhigh) (by omega)
      · exact hother.unique hnearest ▸ hlegal.pair
    · rintro (hshort | ⟨_, hpair⟩ | ⟨hquiet, _⟩)
      · omega
      · refine ⟨by omega, by omega, hhigh, ?_, semi_of_category hcategory⟩
        exact hplace.elim not_pair_of_category (hpair len)
      · exact absurd hquiet hnot
  · have hafter :=
      fun place => @computeFoldLength_before line target window allowBeforeSemi h hlong hquiet place
    generalize computeFoldLength line target window allowBeforeSemi = len at *
    constructor
    · intro hlegal
      exact .inr (.inr ⟨hquiet, len, hpos, hlow, hsemi, hafter, hlegal.pair⟩)
    · rintro (hshort | ⟨hnot, _⟩ | ⟨_, other, hpos', hlow', hsemi', hafter', hpair⟩)
      · omega
      · exact absurd hquiet hnot
      · obtain rfl : len = other := by
          rcases Nat.lt_trichotomy len other with hlt | heq | hgt
          · exact absurd (hafter other hlt hlow') hsemi'
          · exact heq
          · exact absurd (hafter' len hgt hlow) hsemi
        exact ⟨hpos, by omega, by omega, hpair, fun _ => hsemi⟩
  · rw [hzero]
    refine iff_of_false (fun hlegal => absurd hlegal.advances (Nat.lt_irrefl 0)) ?_
    rintro (hshort | ⟨hnot, _⟩ | ⟨_, other, hpos', hlow', hsemi', _⟩)
    · omega
    · exact hnot hquiet
    · exact hsemi' (hsemis other hpos' hlow')

end Choice

/-- The fold of a line in `print_text_field` is a legal one for just the lines for which the
function chooses well. -/
theorem legalFold_computeFoldLength_iff {line : UStr} (doPrefix : Bool) (hne : line ≠ []) :
    LegalFold line (foldTarget doPrefix) foldWindow doPrefix
        (computeFoldLength line (foldTarget doPrefix) foldWindow doPrefix)
      ↔ FoldsWell line doPrefix (foldTarget doPrefix) foldWindow :=
  legalFold_iff (by cases doPrefix <;> decide) hne

/-- A semicolon and a blank in the window. -/
def blankAfterSemicolon : UStr :=
  List.replicate 2036 0x61 ++ units "; b" ++ List.replicate 20 0x61

/-- Such a line is longer than the window allows, and is folded after the blank. -/
theorem legalFold_blankAfterSemicolon :
    foldTarget false + foldWindow < blankAfterSemicolon.length
      ∧ computeFoldLength blankAfterSemicolon (foldTarget false) foldWindow false = 2038
      ∧ LegalFold blankAfterSemicolon (foldTarget false) foldWindow false
        (computeFoldLength blankAfterSemicolon (foldTarget false) foldWindow false) := by
  have hblank : foldCategory blankAfterSemicolon false 2038 = 3 := by decide +kernel
  refine ⟨by decide +kernel, by decide +kernel, ?_⟩
  refine (legalFold_computeFoldLength_iff false (by decide +kernel)).mpr (.inr (.inl ⟨?_, ?_⟩))
  · intro hquiet
    have hzero := hquiet.1 2038 (by decide) (by decide)
    rw [hblank] at hzero
    exact absurd hzero (by decide)
  · intro len hnear
    have hplace := hnear.alike 2038 (by decide) (by decide)
    rw [hblank] at hplace
    exact absurd hplace (by decide)

/-- A surrogate pair across the target, with no blank in the window. -/
def pairAcrossTarget : UStr :=
  List.replicate 2038 0x61 ++ [0xD83D, 0xDE00] ++ List.replicate 20 0x61

theorem not_legalFold_pairAcrossTarget :
    ¬ LegalFold pairAcrossTarget (foldTarget false) foldWindow false
      (computeFoldLength pairAcrossTarget (foldTarget false) foldWindow false) := by
  have hfold : computeFoldLength pairAcrossTarget (foldTarget false) foldWindow false = 2039 := by
    decide +kernel
  rw [hfold]
  intro hlegal
  exact absurd hlegal.pair (by decide +kernel)

end CifApi.Linguist
