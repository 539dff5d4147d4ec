import CifApi.Value.Numb
import CifApi.Writer.BlockLines

/-! Where lines are folded, and the segments that they are written in. -/
namespace CifApi

section FoldPoints

variable {line : UStr} {target window : Nat} {forPrefix : Bool}

theorem canFoldAt_of_blankAt {len : Nat} (h : blankAt line len = true) :
    canFoldAt line forPrefix len = true := by
  have hblank : ∀ c : UChar, (c = UChar.sp ∨ c = UChar.tab) → c ≠ UChar.semi
      ∧ isTrail c = false := by
    rintro c (rfl | rfl) <;> decide
  obtain ⟨hsemi, htrail⟩ := hblank _ (by simpa [blankAt] using h)
  simp [canFoldAt, isSurrogatePair, hsemi, htrail]

theorem lowCandidate_spec (line : UStr) (n : Nat) :
    (lowCandidate line n = -1 ∧ ∀ len ≤ n, blankAt line len = false)
    ∨ ∃ len ≤ n, lowCandidate line n = len ∧ blankAt line len = true ∧ ∀ k, len < k → k ≤ n →
      blankAt line k = false := by
  induction n with
  | zero =>
    unfold lowCandidate
    split
    · rename_i hblank
      exact .inr ⟨0, Nat.le_refl _, rfl, hblank, fun k hk hle => absurd hk (by omega)⟩
    · rename_i hblank
      exact .inl ⟨rfl, fun len hle => by rw [Nat.le_zero.mp hle]; simpa using hblank⟩
  | succ n ih =>
    unfold lowCandidate
    split
    · rename_i hblank
      exact .inr ⟨n + 1, Nat.le_refl _, rfl, hblank, fun k hk hle => absurd hk (by omega)⟩
    · rename_i hblank
      have hlast : ∀ k, k ≤ n + 1 → ¬ k ≤ n → blankAt line k = false := by
        intro k hle hgt
        rw [show k = n + 1 by omega]
        simpa using hblank
      rcases ih with ⟨hlow, hno⟩ | ⟨len, hle, hlow, hlen, hno⟩
      · refine .inl ⟨hlow, fun k hk => ?_⟩
        by_cases hkn : k ≤ n
        · exact hno k hkn
        · exact hlast k hk hkn
      · refine .inr ⟨len, Nat.le_succ_of_le hle, hlow, hlen, fun k hk hle => ?_⟩
        by_cases hkn : k ≤ n
        · exact hno k hk hkn
        · exact hlast k hle hkn

theorem mem_windowPlaces {len : Nat} (h : window < target) :
    len ∈ windowPlaces target window ↔ target - window ≤ len ∧ len ≤ target + window := by
  unfold windowPlaces
  simp only [List.mem_map, List.mem_range]
  constructor
  · rintro ⟨counter, hlt, rfl⟩
    split <;> omega
  · rintro ⟨hlow, hhigh⟩
    by_cases hlen : len ≤ target
    · exact ⟨2 * (target - len), by omega, by rw [if_neg (by omega)]; omega⟩
    · exact ⟨2 * (len - target) - 1, by omega, by rw [if_pos (by omega)]; omega⟩

theorem mem_otherPlaces {len : Nat} : len ∈ otherPlaces line target window ↔
    (0 < len ∧ len < target - window) ∨ (target + window < len ∧ len < line.length) := by
  unfold otherPlaces
  simp only [List.mem_append, List.mem_reverse, List.mem_range'_1]
  omega

/-- Every place within a line that is long enough is looked at. -/
theorem mem_places {len : Nat} (h : window < target) (hlong : target + window < line.length) :
    len ∈ windowPlaces target window ++ otherPlaces line target window ↔ 0 < len
      ∧ len < line.length := by
  rw [List.mem_append, mem_windowPlaces h, mem_otherPlaces]
  omega

/-- A line is taken whole, or folded at a place where it can be, or cannot be folded anywhere. -/
theorem foldLine_cases (doFold : Bool) (h : window < target) :
    (foldLine line doFold target window forPrefix = line.length
      ∧ (doFold = false ∨ line.length ≤ target + window))
    ∨ (doFold = true ∧ target + window < line.length
      ∧ 0 < foldLine line doFold target window forPrefix
      ∧ foldLine line doFold target window forPrefix < line.length
      ∧ canFoldAt line forPrefix (foldLine line doFold target window forPrefix) = true)
    ∨ (doFold = true ∧ target + window < line.length
      ∧ foldLine line doFold target window forPrefix = 0
      ∧ ∀ len, 0 < len → len < line.length → canFoldAt line forPrefix len = false) := by
  by_cases hfold : doFold = true
  · by_cases hlong : line.length ≤ target + window
    · exact .inl ⟨by simp [foldLine, hfold, hlong], .inr hlong⟩
    · have hlt : target + window < line.length := Nat.not_le.mp hlong
      unfold foldLine
      simp only [hfold, hlong, Bool.not_true, Bool.false_eq_true, if_false]
      cases hhigh : (List.range' (target + 1) window).find? (blankAt line) with
      | some high =>
        have hblank := List.find?_some hhigh
        have hmem := List.mem_of_find?_eq_some hhigh
        rw [List.mem_range'_1] at hmem
        have hplace : 0 < high ∧ high < line.length ∧ canFoldAt line forPrefix high = true :=
          ⟨by omega, by omega, canFoldAt_of_blankAt hblank⟩
        refine .inr (.inl ⟨trivial, hlt, ?_⟩)
        simp only
        split
        · exact hplace
        · rename_i hlow
          split
          · exact hplace
          · rcases lowCandidate_spec line target with ⟨hnone, _⟩ | ⟨len, hle, hlen, hblank, _⟩
            · omega
            · rw [hlen, Int.toNat_natCast]
              exact ⟨by omega, by omega, canFoldAt_of_blankAt hblank⟩
      | none =>
        simp only
        cases hfind : (windowPlaces target window ++ otherPlaces line target window).find?
          (canFoldAt line forPrefix) with
        | some len =>
          have hmem := (mem_places h hlt).mp (List.mem_of_find?_eq_some hfind)
          exact .inr (.inl ⟨trivial, hlt, hmem.1, hmem.2, List.find?_some hfind⟩)
        | none =>
          rw [List.find?_eq_none] at hfind
          refine .inr (.inr ⟨trivial, hlt, rfl, fun len hpos hlen => ?_⟩)
          simpa using hfind len ((mem_places h hlt).mpr ⟨hpos, hlen⟩)
  · exact .inl ⟨by simp [foldLine, hfold], .inl (by simpa using hfold)⟩

end FoldPoints

/-- What no line break can be put into: one character and nothing but semicolons, more than a line
is to have. -/
def Unfoldable (s : UStr) : Prop := targetLength + foldingWindow < s.length ∧ ∃ n,
  (∃ c, s = c :: List.replicate n UChar.semi)
  ∨ ∃ u1 u2, isSurrogatePair u1 u2 = true ∧ s = u1 :: u2 :: List.replicate n UChar.semi

section Unfoldable

variable {s : UStr}

theorem not_isSurrogatePair_of_pair {u1 u2 u3 : UChar} (h : isSurrogatePair u1 u2 = true) :
    isSurrogatePair u2 u3 = false := by
  simp only [isSurrogatePair, isTrail, isLead, Bool.and_eq_true, decide_eq_true_eq] at h
  have hlead : isLead u2 = false := by
    simp only [isLead, Bool.and_eq_false_iff, decide_eq_false_iff_not, Nat.not_le]
    exact .inr (Nat.lt_of_lt_of_le (by decide) h.1.1)
  simp [isSurrogatePair, hlead]

theorem canFoldAt_append (t s : UStr) (forPrefix : Bool) {len : Nat} (h : 0 < len) :
    canFoldAt (t ++ s) forPrefix (t.length + len) = canFoldAt s forPrefix len := by
  have hlen : t.length + len - 1 = t.length + (len - 1) := by omega
  have hget : ∀ k, (t ++ s).getD (t.length + k) 0 = s.getD k 0 := by
    intro k
    simp [List.getElem?_append_right]
  unfold canFoldAt
  rw [hlen, hget, hget]

theorem canFoldAt_replicate {first : UStr} {n len : Nat} (hlen : first.length ≤ len)
    (hlt : len < first.length + n) : canFoldAt (first ++ List.replicate n UChar.semi) false len
      = false := by
  have hsemi : (first ++ List.replicate n UChar.semi).getD len 0 = UChar.semi := by
    have hin : len - first.length < n := by omega
    simp [List.getElem?_append_right hlen, hin]
  unfold canFoldAt
  rw [hsemi]
  rfl

theorem Unfoldable.canFoldAt (h : Unfoldable s) {len : Nat} (hpos : 0 < len)
    (hlen : len < s.length) :
    canFoldAt s false len = false := by
  obtain ⟨_, n, ⟨c, rfl⟩ | ⟨u1, u2, hpair, rfl⟩⟩ := h
  · exact @canFoldAt_replicate [c] n len hpos (by simpa [Nat.add_comm] using hlen)
  · by_cases hone : len = 1
    · subst hone
      simp [CifApi.canFoldAt, hpair]
    · exact @canFoldAt_replicate [u1, u2] n len (by simp; omega)
        (by simp only [List.length_cons, List.length_nil, List.length_replicate] at hlen ⊢; omega)

theorem eq_replicate_of_canFoldAt {u : UChar} {rest : UStr}
    (hu : ∀ c, rest.head? = some c → isSurrogatePair u c = false)
    (h : ∀ len, 0 < len → len < (u :: rest).length → canFoldAt (u :: rest) false len = false) :
    rest = List.replicate rest.length UChar.semi := by
  induction rest generalizing u with
  | nil => rfl
  | cons c rest ih =>
    have hfirst := h 1 (by omega) (by simp)
    have hc : c = UChar.semi := by simpa [canFoldAt, hu c rfl] using hfirst
    have hrest := ih (u := c) (fun d _ => by
        subst hc
        have hlead : isLead UChar.semi = false := by decide
        simp [isSurrogatePair, hlead])
      fun len hpos hlen => by
        have hnext := h (len + 1) (by omega) (by simpa using hlen)
        rwa [← @canFoldAt_append [u] (c :: rest) false len hpos, List.singleton_append,
          List.length_singleton, Nat.add_comm]
    rw [List.length_cons, List.replicate_succ, ← hrest, hc]

theorem unfoldable_of_canFoldAt (hlong : targetLength + foldingWindow < s.length)
    (h : ∀ len, 0 < len → len < s.length → canFoldAt s false len = false) : Unfoldable s := by
  refine ⟨hlong, ?_⟩
  match s, h with
  | [], _ => simp at hlong
  | [c], _ => exact ⟨0, .inl ⟨c, rfl⟩⟩
  | u1 :: u2 :: rest, h =>
    by_cases hpair : isSurrogatePair u1 u2 = true
    · refine ⟨rest.length, .inr ⟨u1, u2, hpair, ?_⟩⟩
      have hrest :=
        @eq_replicate_of_canFoldAt u2 rest (fun c _ => not_isSurrogatePair_of_pair hpair)
        fun len hpos hlen => by
          have hnext := h (len + 1) (by omega) (by simpa using hlen)
          rwa [← @canFoldAt_append [u1] (u2 :: rest) false len hpos, List.singleton_append,
            List.length_singleton, Nat.add_comm]
      rw [← hrest]
    · refine ⟨(u2 :: rest).length, .inl ⟨u1, ?_⟩⟩
      rw [← eq_replicate_of_canFoldAt (fun c hc => ?_) h]
      obtain rfl := Option.some.inj hc
      simpa using hpair

/-- Behind a prefix, every line can be folded. -/
theorem exists_canFoldAt (h : 2 < s.length) :
    ∃ len, 0 < len ∧ len < s.length ∧ canFoldAt s true len = true := by
  match s, h with
  | u1 :: u2 :: u3 :: rest, _ =>
    by_cases hpair : isSurrogatePair u1 u2 = true
    · exact ⟨2, by omega, by simp, by simp [canFoldAt, not_isSurrogatePair_of_pair hpair]⟩
    · exact ⟨1, by omega, by simp, by simpa [canFoldAt] using hpair⟩

end Unfoldable

section Segments

variable {fold forPrefix protect : Bool}

theorem writeSegments_nil (n : Nat) : writeSegments fold forPrefix protect n [] = .ok [] := by
  cases n <;> rfl

/-- A line that can be written is written in segments, each after a line feed and the prefix. -/
theorem writeSegments_eq_ok {n : Nat} {tok out : UStr} (hn : tok.length ≤ n) (hne : tok ≠ [])
    (h : writeSegments fold forPrefix protect n tok = .ok out) : ∃ segments last,
      Segments fold forPrefix tok segments last
      ∧ out = segments.flatMap (fun s => UChar.nl :: (prefixText forPrefix ++ s ++ [UChar.bsl]))
        ++ UChar.nl :: (prefixText forPrefix ++ last ++ if protect then [UChar.bsl] else []) := by
  induction n generalizing tok out with
  | zero => exact absurd (List.eq_nil_of_length_eq_zero (Nat.le_zero.mp hn)) hne
  | succ n ih =>
    rw [writeSegments, if_neg hne] at h
    have hlength : 0 < tok.length := List.length_pos_of_ne_nil hne
    rcases @foldLine_cases tok targetLength foldingWindow forPrefix fold (by decide) with
      ⟨hwhole, _⟩ | ⟨rfl, hlong, hpos, hlt, hcan⟩ | ⟨_, _, hzero, _⟩
    · simp only [hwhole, List.drop_length, List.take_length, writeSegments_nil] at h
      rw [if_neg (by omega)] at h
      refine ⟨[], tok, .whole hne, ?_⟩
      obtain rfl := Except.ok.inj h
      cases protect <;> simp
    · generalize foldLine tok true targetLength foldingWindow forPrefix = len at *
      simp only at h
      rw [if_neg (by omega)] at h
      obtain ⟨rest, hrest, h⟩ := bind_eq_ok.mp h
      have hdrop : tok.drop len ≠ [] := by simp; omega
      obtain ⟨segments, last, hsegments, rfl⟩ := ih (by simp; omega) hdrop hrest
      refine ⟨tok.take len :: segments, last, hsegments.cons hpos ?_, ?_⟩
      · rintro rfl hsemi
        simp [canFoldAt, hsemi] at hcan
      · obtain rfl := Except.ok.inj h
        simp [hdrop]
    · simp [hzero] at h

/-- A line cannot be written just where, without a prefix, it ends in what no line break can be put
into. -/
theorem writeSegments_eq_ok_iff {n : Nat} {tok : UStr} (hn : tok.length ≤ n) :
    (∃ out, writeSegments fold forPrefix protect n tok = .ok out)
      ↔ ¬ (fold = true ∧ forPrefix = false ∧ ∃ s, s <:+ tok ∧ Unfoldable s) := by
  induction n generalizing tok with
  | zero =>
    obtain rfl : tok = [] := List.eq_nil_of_length_eq_zero (Nat.le_zero.mp hn)
    refine ⟨?_, fun _ => ⟨[], rfl⟩⟩
    rintro _ ⟨_, _, s, hs, hlong, _⟩
    simp [List.suffix_nil.mp hs] at hlong
  | succ n ih =>
    by_cases hne : tok = []
    · subst hne
      refine ⟨?_, fun _ => ⟨[], writeSegments_nil _⟩⟩
      rintro _ ⟨_, _, s, hs, hlong, _⟩
      simp [List.suffix_nil.mp hs] at hlong
    · have hlength : 0 < tok.length := List.length_pos_of_ne_nil hne
      rw [writeSegments, if_neg hne]
      rcases @foldLine_cases tok targetLength foldingWindow forPrefix fold (by decide) with
        ⟨hwhole, hshort⟩ | ⟨rfl, hlong, hpos, hlt, hcan⟩ | ⟨rfl, hlong, hzero, hnone⟩
      · simp only [hwhole, List.drop_length, writeSegments_nil]
        rw [if_neg (by omega)]
        refine ⟨?_, fun _ => ⟨_, rfl⟩⟩
        rintro _ ⟨rfl, _, s, hs, hlong, _⟩
        have hle := hs.length_le
        have hshort := hshort.resolve_left (by simp)
        omega
      · generalize foldLine tok true targetLength foldingWindow forPrefix = len at *
        simp only
        rw [if_neg (by omega)]
        have hrest := @ih (tok.drop len) (by simp; omega)
        have hbind : (∃ out, (do
            let rest ← writeSegments true forPrefix protect n (tok.drop len)
            return UChar.nl :: prefixText forPrefix ++ tok.take len
              ++ (if tok.drop len ≠ [] || protect then [UChar.bsl] else []) ++ rest)
                = Except.ok out)
            ↔ ∃ out, writeSegments true forPrefix protect n (tok.drop len) = .ok out := by
          constructor
          · rintro ⟨out, hout⟩
            obtain ⟨rest, hrest, _⟩ := bind_eq_ok.mp hout
            exact ⟨rest, hrest⟩
          · rintro ⟨rest, hrest⟩
            exact ⟨_, bind_eq_ok.mpr ⟨rest, hrest, rfl⟩⟩
        rw [hbind, hrest]
        simp only [true_and]
        refine not_congr (and_congr_right fun hpre => ?_)
        subst hpre
        constructor
        · exact fun ⟨s, hs, hun⟩ => ⟨s, hs.trans (List.drop_suffix _ _), hun⟩
        · rintro ⟨s, ⟨t, rfl⟩, hun⟩
          refine ⟨s, ?_, hun⟩
          -- the fold is no later than where the suffix begins
          have hle : len ≤ t.length := by
            by_contra hgt
            have hno :=
              @Unfoldable.canFoldAt _ hun (len - t.length) (by omega) (by simp at hlt; omega)
            rw [← canFoldAt_append t s false (by omega), Nat.add_sub_cancel' (by omega)] at hno
            simp [hno] at hcan
          exact ⟨t.drop len, by rw [List.drop_append_of_le_length hle]⟩
      · simp only [hzero, Nat.le_refl, if_true]
        refine ⟨by simp, fun hnot => absurd ?_ hnot⟩
        cases forPrefix with
        | true =>
          obtain ⟨len, hpos, hlt, hcan⟩ := @exists_canFoldAt tok (Nat.lt_trans (by decide) hlong)
          simp [hnone len hpos hlt] at hcan
        | false =>
          exact ⟨trivial, rfl, tok, List.suffix_refl _, unfoldable_of_canFoldAt hlong hnone⟩

end Segments

end CifApi
