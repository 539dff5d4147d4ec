import CifApi.Writer.TextSegments

/-! The place that a line is folded at: that it is a legal one, and when it is at a blank. -/
namespace CifApi

/-- What a fold of a line is to be. -/
structure GoodFold (line : UStr) (target window : Nat) (forPrefix : Bool) (len : Nat) : Prop where
  whole : line.length ≤ target + window → len = line.length
  within : target + window < line.length → (1 ≤ len ∧ len ≤ line.length)
    ∨ (len = 0 ∧ ∀ place, 0 < place → place < line.length → canFoldAt line forPrefix place = false)
  pair : 0 < len → isSurrogatePair (line.getD (len - 1) 0) (line.getD len 0) = false
  semi : 0 < len → forPrefix = false → line.getD len 0 ≠ UChar.semi
  blank : target + window < line.length →
    (∃ place, target - window ≤ place ∧ place ≤ target + window ∧ blankAt line place = true) →
    target - window ≤ len ∧ len ≤ target + window ∧ blankAt line len = true

/-- A blank up to the target, and no legal place nearer to the target on either side. -/
def NearestPlace (line : UStr) (target window : Nat) (forPrefix : Bool) (len : Nat) : Prop :=
  (target - window ≤ len ∧ len ≤ target ∧ blankAt line len = true)
    ∧ ∀ place, len < place → place ≤ 2 * target - len → canFoldAt line forPrefix place = false

/-- Where the blanks around the target do not matter, or one is beyond the target, or the one that
is nearest before it is nearer than every other legal place. -/
def BlankReached (line : UStr) (target window : Nat) (forPrefix : Bool) : Prop :=
  line.length ≤ target + window
    ∨ (∃ len, target < len ∧ len ≤ target + window ∧ blankAt line len = true)
    ∨ (∀ len, target - window ≤ len → len ≤ target → blankAt line len = false)
    ∨ ∃ len, NearestPlace line target window forPrefix len

section Choice

variable {line : UStr} {target window len : Nat} {forPrefix : Bool}

/-- Which place around the target is taken: the first that can be, going out from it. -/
theorem find?_windowPlaces (h : window < target) {p : Nat → Bool} (hlow : target - window ≤ len)
    (hle : len ≤ target) :
    (windowPlaces target window).find? p = some len
      ↔ p len = true ∧ ∀ place, len < place → place ≤ 2 * target - len → p place = false := by
  unfold windowPlaces
  rw [List.find?_map, Option.map_eq_some_iff]
  simp only [List.find?_range_eq_some, List.mem_range, Function.comp_apply, Bool.not_eq_true']
  constructor
  · rintro ⟨counter, ⟨hp, hlt, hfirst⟩, heq⟩
    rw [heq] at hp
    have hcounter : counter = 2 * (target - len) := by
      split at heq <;> omega
    refine ⟨hp, fun place hgt hplace => ?_⟩
    by_cases hbefore : place ≤ target
    · have hno := hfirst (2 * (target - place)) (by omega)
      rwa [if_neg (by omega), show target - 2 * (target - place) / 2 = place by omega] at hno
    · have hno := hfirst (2 * (place - target) - 1) (by omega)
      rwa [if_pos (by omega), show target + (2 * (place - target) - 1 + 1) / 2 = place by
        omega] at hno
  · rintro ⟨hp, hno⟩
    have heq : (if 2 * (target - len) % 2 = 1 then target + (2 * (target - len) + 1) / 2
        else target - 2 * (target - len) / 2) = len := by
      rw [if_neg (by omega)]
      omega
    refine ⟨2 * (target - len), ⟨heq.symm ▸ hp, by omega, fun counter hlt => ?_⟩, heq⟩
    split
    · exact hno _ (by omega) (by omega)
    · exact hno _ (by omega) (by omega)

/-- With a blank beyond the target, the fold is at a blank. -/
theorem blankAt_foldLine (h : window < target) (hlong : target + window < line.length)
    (hhigh : ∃ len, target < len ∧ len ≤ target + window ∧ blankAt line len = true) :
    target - window ≤ foldLine line true target window forPrefix
      ∧ foldLine line true target window forPrefix ≤ target + window
      ∧ blankAt line (foldLine line true target window forPrefix) = true := by
  have hnot : ¬ line.length ≤ target + window := Nat.not_le.mpr hlong
  unfold foldLine
  simp only [Bool.not_true, Bool.false_eq_true, hnot, if_false]
  cases hfind : (List.range' (target + 1) window).find? (blankAt line) with
  | none =>
    obtain ⟨len, hgt, hle, hblank⟩ := hhigh
    rw [List.find?_eq_none] at hfind
    exact absurd hblank (hfind len (List.mem_range'_1.mpr (by omega)))
  | some high =>
    have hblank := List.find?_some hfind
    have hmem := List.mem_range'_1.mp (List.mem_of_find?_eq_some hfind)
    have hplace : target - window ≤ high ∧ high ≤ target + window ∧ blankAt line high = true :=
      ⟨by omega, by omega, hblank⟩
    simp only
    split
    · exact hplace
    · rename_i hlow
      split
      · exact hplace
      · rcases lowCandidate_spec line target with ⟨hnone, -⟩ | ⟨low, hle, heq, hblank', -⟩
        · omega
        · rw [heq, Int.toNat_natCast]
          exact ⟨by omega, by omega, hblank'⟩

/-- With none, the blanks before the target are passed over. -/
theorem foldLine_noBlank (hlong : target + window < line.length)
    (hno : ∀ len, target < len → len ≤ target + window → blankAt line len = false) :
    foldLine line true target window forPrefix
      = ((windowPlaces target window ++ otherPlaces line target window).find?
        (canFoldAt line forPrefix)).getD 0 := by
  have hnot : ¬ line.length ≤ target + window := Nat.not_le.mpr hlong
  have hfind : (List.range' (target + 1) window).find? (blankAt line) = none := by
    refine List.find?_eq_none.mpr fun len hlen => ?_
    rw [List.mem_range'_1] at hlen
    simp [hno len (by omega) (by omega)]
  unfold foldLine
  simp only [Bool.not_true, Bool.false_eq_true, hnot, if_false, hfind]

/-- Up to the target, the place is taken that no legal one is nearer than. -/
theorem foldLine_eq_iff (h : window < target) (hlong : target + window < line.length)
    (hno : ∀ len, target < len → len ≤ target + window → blankAt line len = false)
    (hlow : target - window ≤ len) (hle : len ≤ target) (hblank : blankAt line len = true) :
    foldLine line true target window forPrefix = len ↔
      NearestPlace line target window forPrefix len := by
  have hcan : canFoldAt line forPrefix len = true := canFoldAt_of_blankAt hblank
  have hnearest : NearestPlace line target window forPrefix len
      ↔ (windowPlaces target window).find? (canFoldAt line forPrefix) = some len := by
    rw [find?_windowPlaces h hlow hle]
    exact ⟨fun hplace => ⟨hcan, hplace.2⟩, fun hplace => ⟨⟨hlow, hle, hblank⟩, hplace.2⟩⟩
  rw [hnearest, foldLine_noBlank hlong hno, List.find?_append]
  cases hfind : (windowPlaces target window).find? (canFoldAt line forPrefix) with
  | some place => simp
  | none =>
    rw [List.find?_eq_none] at hfind
    exact absurd hcan (hfind len ((mem_windowPlaces h).mpr ⟨hlow, by omega⟩))

/-- Apart from blanks, a fold is always a good one. -/
theorem goodFold_of_blank (h : window < target)
    (hblank : target + window < line.length →
      (∃ place, target - window ≤ place ∧ place ≤ target + window ∧ blankAt line place = true) →
      target - window ≤ foldLine line true target window forPrefix
        ∧ foldLine line true target window forPrefix ≤ target + window
        ∧ blankAt line (foldLine line true target window forPrefix) = true) :
    GoodFold line target window forPrefix (foldLine line true target window forPrefix) := by
  have hend : line.getD line.length 0 = 0 := by simp
  rcases @foldLine_cases line target window forPrefix true h with ⟨heq, hshort⟩
    | ⟨-, hlong, hpos, hlt, hcan⟩ | ⟨-, hlong, hzero, hnone⟩
  · have hle := hshort.resolve_left (by decide)
    refine ⟨fun _ => heq, fun hlong => absurd hle (Nat.not_le.mpr hlong), ?_, ?_, hblank⟩
    · intro _
      rw [heq, hend]
      rfl
    · intro _ _
      rw [heq, hend]
      decide
  · simp only [canFoldAt, Bool.and_eq_true, Bool.or_eq_true, decide_eq_true_eq,
      Bool.not_eq_true'] at hcan
    refine ⟨fun hle => absurd hle (Nat.not_le.mpr hlong), fun _ => .inl ⟨hpos, Nat.le_of_lt hlt⟩,
      fun _ => hcan.2, ?_, hblank⟩
    intro _ hpre
    exact hcan.1.resolve_right (by simp [hpre])
  · exact ⟨fun hle => absurd hle (Nat.not_le.mpr hlong), fun _ => .inr ⟨hzero, hnone⟩,
      fun hpos => absurd hzero (Nat.ne_of_gt hpos), fun hpos => absurd hzero (Nat.ne_of_gt hpos),
      hblank⟩

/-- `fold_line` folds well just where the blanks before the target need not be looked for. -/
theorem goodFold_iff (h : window < target) :
    GoodFold line target window forPrefix (foldLine line true target window forPrefix)
      ↔ BlankReached line target window forPrefix := by
  constructor
  · intro hgood
    by_cases hshort : line.length ≤ target + window
    · exact .inl hshort
    by_cases hhigh : ∃ len, target < len ∧ len ≤ target + window ∧ blankAt line len = true
    · exact .inr (.inl hhigh)
    by_cases hlow : ∀ len, target - window ≤ len → len ≤ target → blankAt line len = false
    · exact .inr (.inr (.inl hlow))
    have hlong := Nat.not_le.mp hshort
    have hno : ∀ len, target < len → len ≤ target + window → blankAt line len = false := by
      intro len hgt hle
      by_contra hblank
      exact hhigh ⟨len, hgt, hle, by simpa using hblank⟩
    obtain ⟨place, hge, hle, hblank⟩ : ∃ place, target - window ≤ place ∧ place ≤ target
        ∧ blankAt line place = true := by
      by_contra hnone
      refine hlow fun len hge hle => ?_
      by_contra hblank
      exact hnone ⟨len, hge, hle, by simpa using hblank⟩
    -- the fold is at a blank that is not beyond the target
    obtain ⟨hge', hle', hblank'⟩ := hgood.blank hlong ⟨place, hge, by omega, hblank⟩
    have htarget : foldLine line true target window forPrefix ≤ target := by
      by_contra hgt
      rw [hno _ (Nat.not_le.mp hgt) hle'] at hblank'
      exact absurd hblank' (by decide)
    exact .inr (.inr (.inr ⟨_, (foldLine_eq_iff h hlong hno hge' htarget hblank').mp rfl⟩))
  · intro hreached
    refine goodFold_of_blank h fun hlong hblank => ?_
    by_cases hhigh : ∃ len, target < len ∧ len ≤ target + window ∧ blankAt line len = true
    · exact blankAt_foldLine h hlong hhigh
    have hno : ∀ len, target < len → len ≤ target + window → blankAt line len = false := by
      intro len hgt hle
      by_contra hblank
      exact hhigh ⟨len, hgt, hle, by simpa using hblank⟩
    rcases hreached with hshort | hhigh' | hlow | ⟨len, hnearest⟩
    · exact absurd hlong (Nat.not_lt.mpr hshort)
    · exact absurd hhigh' hhigh
    · obtain ⟨place, hge, hle, hblank⟩ := hblank
      by_cases hbefore : place ≤ target
      · simp [hlow place hge hbefore] at hblank
      · simp [hno place (by omega) hle] at hblank
    · obtain ⟨⟨hge, hle, hblank⟩, -⟩ := id hnearest
      rw [(foldLine_eq_iff h hlong hno hge hle hblank).mpr hnearest]
      exact ⟨hge, by omega, hblank⟩

end Choice

/-- Words of which one ends right after the target are folded between. -/
theorem goodFold_words :
    GoodFold (units "ab cd ef") 4 2 false (foldLine (units "ab cd ef") true 4 2 false) :=
  (goodFold_iff (by decide)).mpr (.inr (.inl ⟨5, by decide, by decide, by decide⟩))

/-- A line whose only blank is in the window, two places before the target, is folded at the target
all the same, inside the word that follows. -/
theorem not_goodFold_before :
    let line := List.replicate (targetLength - 2) 97 ++ UChar.sp :: List.replicate 100 97
    foldLine line true targetLength foldingWindow false = targetLength
      ∧ blankAt line (targetLength - 2) = true ∧ blankAt line (targetLength - 1) = false
      ∧ blankAt line targetLength = false
      ∧ ¬ GoodFold line targetLength foldingWindow false
        (foldLine line true targetLength foldingWindow false) := by
  intro line
  have hfold : foldLine line true targetLength foldingWindow false = targetLength := by
    decide +kernel
  have hblank : blankAt line (targetLength - 2) = true := by decide +kernel
  have hbefore : blankAt line (targetLength - 1) = false := by decide +kernel
  have hword : blankAt line targetLength = false := by decide +kernel
  refine ⟨hfold, hblank, hbefore, hword, fun hgood => ?_⟩
  obtain ⟨-, -, hat⟩ := hgood.blank (by decide +kernel) ⟨_, by decide, by decide, hblank⟩
  rw [hfold, hword] at hat
  exact absurd hat (by decide)

end CifApi
