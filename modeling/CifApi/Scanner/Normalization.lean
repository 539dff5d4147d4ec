import CifApi.Scanner.Calls
import CifApi.Scanner.Delivery

/-! When the units delivered by `get_first_char` and `get_more_chars` are the input with its line
terminators normalised. -/
namespace CifApi

open Exec Buffer

variable {σ : Type} {o : Options σ} {source : List (List UChar)} {us input : List UChar}

/-- What a run of `get_first_char` and then of `get_more_chars` up to the end of the input
delivers. -/
def Delivers (o : Options σ) (source : List (List UChar)) (us : List UChar) : Prop :=
  ∃ (s s' : Scanner σ) (first : Bool) (tail : List UChar) (b : Buffer),
    s.toBuffer = Buffer.initial source ∧ getFirstChar (Config.initV2 o) s = some (.ok first, s') ∧
      Fills s'.toBuffer tail b ∧ b.getMoreChars.1 = Code.eof ∧
      us = s'.slice 0 s'.bufferLimit ++ tail

/-- However the input is split into chunks, its units are delivered with their terminators
normalised. -/
def DeliversNormalized (σ : Type) (input : List UChar) : Prop :=
  ∀ (o : Options σ) (source : List (List UChar)) (us : List UChar), source.flatten = input →
    (∀ chunk ∈ source, chunk ≠ []) → Delivers o source us → us = normalizeTerminators input

/-- The input does not begin with CR and has no CR LF pair, or at most one unit follows a first CR,
and that is not another CR. -/
def KeepsTerminators : List UChar → Prop
  | [] => True
  | c :: rest =>
    if c = UChar.cr then rest.length ≤ 1 ∧ rest ≠ [UChar.cr] else crlfCount (c :: rest) = 0

theorem not_isDisallowedFirst_cr (o : Options σ) :
    isDisallowedFirst (Config.initV2 o) UChar.cr = false := rfl

/-- Only an allowed first unit is converted, but the conversion leaves every other as it is. -/
theorem getFirstChar_ok {s s' : Scanner σ} {first : Bool} {c : UChar} {rest : List UChar}
    (hne : ∀ chunk ∈ source, chunk ≠ []) (hsrc : source.flatten = c :: rest)
    (hs : s.toBuffer = Buffer.initial source)
    (h : getFirstChar (Config.initV2 o) s = some (.ok first, s')) :
    s'.toBuffer = firstFilled source := by
  obtain ⟨tail, hread, _⟩ := readFirst_initial hne hsrc
  have hpost : Ensures (getFirstChar (Config.initV2 o)) s (fun _ t =>
      t.toBuffer = firstFilled source) (fun _ _ => True) := by
    rw [Ensures, post_getFirstChar_of_decoded (hs ▸ fun _ => rfl), hs, hread, firstFilled, hread]
    dsimp only
    split
    · rename_i hbad
      have hc : c ≠ UChar.cr := by
        rintro rfl
        simp [not_isDisallowedFirst_cr] at hbad
      refine Post.report (fun w e => ?_) (fun _ _ _ => trivial)
      simp [Scanner.after, Scanner.setWorld, Scanner.push, convertFirst, write, hc]
    · rfl
  exact hpost.of_ok h

theorem Delivers.of_cons {c : UChar} {rest : List UChar} (h : Delivers o source us)
    (hne : ∀ chunk ∈ source, chunk ≠ []) (hsrc : source.flatten = c :: rest) :
    ∃ tail b, Fills (firstFilled source) tail b ∧ b.getMoreChars.1 = Code.eof ∧
      us = (firstFilled source).slice 0 (firstFilled source).bufferLimit ++ tail := by
  obtain ⟨s, s', first, tail, b, hs, hfirst, hfills, heof, rfl⟩ := h
  have hb := getFirstChar_ok hne hsrc hs hfirst
  rw [hb] at hfills ⊢
  exact ⟨tail, b, hfills, heof, rfl⟩

/-- Without input nothing is delivered. -/
theorem Delivers.of_nil (h : Delivers o [] us) : us = [] := by
  obtain ⟨s, s', first, tail, b, hs, hfirst, hfills, heof, rfl⟩ := h
  have hpost : Ensures (getFirstChar (Config.initV2 o)) s
      (fun _ t => t.toBuffer = { Buffer.initial [] with atEof := true }) (fun _ _ => True) := by
    rw [Ensures, post_getFirstChar_of_decoded (hs ▸ fun _ => rfl), hs]
    simp [readFirst, readFunc, Buffer.initial]
  have hb := hpost.of_ok hfirst
  have hsound : Buffer.Sound s'.toBuffer := by
    rw [hb]
    exact ⟨by simp [Buffer.initial], by simp [Buffer.initial], by simp [Buffer.initial],
      by simp [Buffer.initial], by simp [Buffer.initial], by simp [Buffer.initial]⟩
  obtain ⟨chunks, hflat, htail, _⟩ := hfills.chunks hsound heof
  have hnil : (chunks.map delivered).flatten = [] := by
    rw [delivered_flatten_of_no_crlf]
    · simp [hflat, hb, Buffer.initial]
    · simp [hflat, hb, Buffer.initial, crlfCount, crlfFrom]
  rw [htail, hnil, hb]
  rfl

/-- A run of `get_first_char` and `get_more_chars` to the end of the input, with every error
ignored. -/
theorem exists_delivers [Inhabited σ] {c : UChar} {rest : List UChar}
    (hne : ∀ chunk ∈ source, chunk ≠ []) (hsrc : source.flatten = c :: rest)
    (hsound : Buffer.Sound (firstFilled source)) :
    ∃ (o : Options σ) (tail : List UChar) (b : Buffer), Fills (firstFilled source) tail b ∧
      b.getMoreChars.1 = Code.eof ∧
      Delivers o source ((firstFilled source).slice 0 (firstFilled source).bufferLimit
        ++ tail) := by
  obtain ⟨tail, b, hfills, heof⟩ := hsound.exists_fills
  let o : Options σ := { Callbacks.ignoring with
    cifVersion := 0, lineFoldingModifier := 0, textPrefixingModifier := 0, maxFrameDepth := 0
    extraWsChars := [], extraEolChars := [], notUtf8 := false, strayName := fun _ => false
    icu := ⟨id, id, id⟩, platform := Platform.exact }
  let s : Scanner σ :=
    { toBuffer := Buffer.initial source, ttype := .end_, tvalueLength := 0, line := 1, column := 0
      skipDepth := 0, world := ⟨default, {}⟩, log := [] }
  have hruns : Halts (getFirstChar (Config.initV2 o)) s (fun _ _ => True) (fun _ _ => False) := by
    obtain ⟨_, hread, _⟩ := readFirst_initial hne hsrc
    rw [Halts, post_getFirstChar_of_decoded fun _ => rfl, hread]
    dsimp only
    split
    · rw [post_report, post_errorCallback]
      exact ⟨fun _ => trivial, fun hc => hc rfl⟩
    · trivial
  obtain ⟨⟨e | first, s'⟩, hrun⟩ := hruns.exists
  · exact (hruns.of_error hrun).elim
  · have hb := getFirstChar_ok hne hsrc rfl hrun
    rw [← hb] at hfills ⊢
    exact ⟨o, tail, b, hfills, heof, s, s', first, tail, b, rfl, hrun, hfills, heof, rfl⟩

/-- Input that keeps its terminators is delivered normalised, whatever its chunks. -/
theorem deliversNormalized_of_keepsTerminators (h : KeepsTerminators input) :
    DeliversNormalized σ input := by
  intro o source us hsrc hne hd
  cases input with
  | nil =>
    have hnil : source = [] := by
      cases source with
      | nil => rfl
      | cons chunk source =>
        simp only [List.flatten_cons, List.append_eq_nil_iff] at hsrc
        exact absurd hsrc.1 (hne chunk (by simp))
    subst hnil
    rw [hd.of_nil]
    rfl
  | cons c rest =>
    obtain ⟨tail, b, hfills, heof, rfl⟩ := hd.of_cons hne hsrc
    by_cases hc : c = UChar.cr
    · subst hc
      simp only [KeepsTerminators, if_true] at h
      obtain ⟨hsound, chunk, hslice, hrest, hnil, _⟩ := firstFilled_cr hne hsrc
      obtain ⟨chunks, hflat, htail, _⟩ := hfills.chunks hsound heof
      have hlen := congrArg List.length hrest
      rw [List.length_append] at hlen
      have hempty : (firstFilled source).charSource.flatten = [] := by
        cases chunk with
        | nil => simpa [hnil rfl] using hrest.symm
        | cons u us =>
          apply List.eq_nil_of_length_eq_zero
          simp only [List.length_cons] at hlen
          omega
      have hnotail : tail = [] := by
        rw [htail, delivered_flatten_of_no_crlf]
        · simp [hflat, hempty]
        · simp [hflat, hempty, crlfCount, crlfFrom]
      rw [hslice, hnotail, hrest, hempty]
      rw [hempty, List.append_nil] at hrest
      subst hrest
      obtain _ | ⟨u, _ | ⟨v, more⟩⟩ := rest
      · rfl
      · have hu : u ≠ UChar.cr := by simpa using h.2
        by_cases hn : u = UChar.nl
        · subst hn
          rfl
        · simp [normalizeTerminators, normalizeFrom, lfOf, hn, hu]
      · simp at h
    · simp only [KeepsTerminators, hc, if_false] at h
      obtain ⟨hsound, hslice, hrest⟩ := firstFilled_of_ne_cr hne hsrc hc
      obtain ⟨chunks, hflat, htail, _⟩ := hfills.chunks hsound heof
      have hno : crlfCount rest = 0 := by simpa [crlfCount, crlfFrom, hc] using h
      rw [hslice, htail, delivered_flatten_of_no_crlf (by rw [hflat, hrest, hno]), hflat, hrest,
        normalizeTerminators_of_no_crlf h]
      simp [lfOf, hc]

/-- A chunk of two units after a first CR loses the second of them. -/
theorem firstFilled_cr_pair (u v : UChar) (tail : List (List UChar)) :
    (firstFilled ([UChar.cr] :: [u, v] :: tail)).slice 0
        (firstFilled ([UChar.cr] :: [u, v] :: tail)).bufferLimit =
      UChar.nl :: [u].filter (· ≠ UChar.nl) ∧
      (firstFilled ([UChar.cr] :: [u, v] :: tail)).charSource = tail := by
  have hf : firstFilled ([UChar.cr] :: [u, v] :: tail) = { initial [] with
      buffer := write (write (write (initial []).buffer 0 [UChar.cr]) 0 [UChar.nl]) 1 [u, v]
      charSource := tail
      bufferLimit := if u = UChar.nl then 1 else 2 } := by
    by_cases hu : u = UChar.nl <;>
      simp [firstFilled, readFirst, readFunc, convertFirst, acceptFirst, initial, write, hu,
        bufSizeInitial_eq]
  rw [hf]
  refine ⟨?_, rfl⟩
  by_cases hu : u = UChar.nl
  · simp [hu, Buffer.slice, CifApi.write]
  · simp [hu, Buffer.slice, CifApi.write, List.range_succ]

/-- The units of a text one by one. -/
def singletons (units : List UChar) : List (List UChar) := units.map ([·])

theorem flatten_singletons (units : List UChar) : (singletons units).flatten = units := by
  induction units with
  | nil => rfl
  | cons c rest ih => simpa [singletons] using ih

theorem length_of_mem_singletons {units d : List UChar} (h : d ∈ singletons units) :
    d.length = 1 := by
  obtain ⟨c, _, rfl⟩ := List.mem_map.mp h
  rfl

/-- What singletons after a first CR deliver: nothing is lost. -/
theorem delivers_singletons [Inhabited σ] (u : UChar) (units : List UChar) :
    ∃ o : Options σ, Delivers o ([UChar.cr] :: [u] :: singletons units)
      (UChar.nl :: [u].filter (· ≠ UChar.nl) ++ units.map lfOf) := by
  have hne : ∀ chunk ∈ [UChar.cr] :: [u] :: singletons units, chunk ≠ [] := by
    simp [singletons]
  have hflat : ([UChar.cr] :: [u] :: singletons units).flatten = UChar.cr :: u :: units := by
    simp [flatten_singletons]
  have hone : ∀ d ∈ [UChar.cr] :: [u] :: singletons units, d.length ≤ 1 := by
    intro d hd
    simp only [List.mem_cons] at hd
    rcases hd with rfl | rfl | hd
    · simp
    · simp
    · exact Nat.le_of_eq (length_of_mem_singletons hd)
  obtain ⟨hsound, chunk, hslice, hrest, hnil, hbound⟩ := firstFilled_cr hne hflat
  obtain ⟨o, tail, b, hfills, heof, hd⟩ := exists_delivers (σ := σ) hne hflat hsound
  obtain ⟨chunks, hcf, htail, hm⟩ := hfills.chunks hsound heof
  obtain ⟨hlen, hsrc⟩ := hbound 1 hone
  match chunk, hlen with
  | [], _ => exact absurd (hnil rfl) (by simp)
  | [d], _ =>
    simp only [List.singleton_append, List.cons.injEq] at hrest
    obtain ⟨rfl, hrest⟩ := hrest
    rw [hslice, htail, delivered_flatten_of_singletons (hm 1 hsrc), hcf, ← hrest] at hd
    exact ⟨o, hd⟩

/-- With the first two units after a first CR in one chunk, the second of them is not delivered. -/
theorem delivers_pair [Inhabited σ] (u v : UChar) (units : List UChar) :
    ∃ o : Options σ, Delivers o ([UChar.cr] :: [u, v] :: singletons units)
      (UChar.nl :: [u].filter (· ≠ UChar.nl) ++ units.map lfOf) := by
  have hne : ∀ chunk ∈ [UChar.cr] :: [u, v] :: singletons units, chunk ≠ [] := by
    simp [singletons]
  have hflat : ([UChar.cr] :: [u, v] :: singletons units).flatten
      = UChar.cr :: u :: v :: units := by
    simp [flatten_singletons]
  obtain ⟨hsound, _⟩ := firstFilled_cr hne hflat
  obtain ⟨hslice, hsrc⟩ := firstFilled_cr_pair u v (singletons units)
  obtain ⟨o, tail, b, hfills, heof, hd⟩ := exists_delivers (σ := σ) hne hflat hsound
  obtain ⟨chunks, hcf, htail, hm⟩ := hfills.chunks hsound heof
  rw [hslice, htail, delivered_flatten_of_singletons, hcf, hsrc, flatten_singletons] at hd
  · exact ⟨o, hd⟩
  · refine hm 1 ?_
    intro d hd
    rw [hsrc] at hd
    exact Nat.le_of_eq (length_of_mem_singletons hd)

theorem keepsTerminators_of_deliversNormalized [Inhabited σ] (h : DeliversNormalized σ input) :
    KeepsTerminators input := by
  match input with
  | [] => trivial
  | c :: rest =>
    by_cases hc : c = UChar.cr
    · subst hc
      simp only [KeepsTerminators, if_true]
      match rest with
      | [] => simp
      | [u] =>
        refine ⟨by simp, ?_⟩
        rintro heq
        obtain rfl : u = UChar.cr := by simpa using heq
        obtain ⟨o, hd⟩ := delivers_singletons (σ := σ) UChar.cr []
        have := h o _ _ (by simp [singletons]) (by simp [singletons]) hd
        exact absurd this (by decide)
      | u :: v :: units =>
        -- the two chunkings deliver different numbers of units
        obtain ⟨o, hd⟩ := delivers_singletons (σ := σ) u (v :: units)
        obtain ⟨o', hd'⟩ := delivers_pair (σ := σ) u v units
        have heq := h o _ _ (by simp [flatten_singletons]) (by simp [singletons]) hd
        have heq' := h o' _ _ (by simp [flatten_singletons]) (by simp [singletons]) hd'
        have hlen := congrArg List.length (heq.trans heq'.symm)
        simp only [List.length_append, List.length_cons, List.length_map] at hlen
        omega
    · simp only [KeepsTerminators, hc, if_false]
      by_contra hcount
      have hne : ∀ chunk ∈ [c :: rest], chunk ≠ [] := by simp
      have hflat : [c :: rest].flatten = c :: rest := by simp
      obtain ⟨hsound, hslice, hrest⟩ := firstFilled_of_ne_cr hne hflat hc
      obtain ⟨o, tail, b, hfills, heof, hd⟩ := exists_delivers (σ := σ) hne hflat hsound
      obtain ⟨chunks, hcf, htail, _⟩ := hfills.chunks hsound heof
      have heq := h o _ _ hflat hne hd
      have hgt := length_delivered_gt chunks (by
        rw [hcf, hrest]
        simpa [crlfCount, crlfFrom, hc] using hcount)
      rw [hslice, htail] at heq
      have hlen := congrArg List.length heq
      rw [hcf, hrest] at hgt
      simp only [List.length_append, List.length_cons, List.length_nil, normalizeTerminators,
        normalizeFrom, Bool.false_and, Bool.false_eq_true, if_false, hc, decide_false] at hlen hgt
      omega

/-- The units delivered are the input with its line terminators normalised, whatever the chunks,
just when the input keeps its terminators. -/
theorem deliversNormalized_iff [Inhabited σ] (input : List UChar) :
    DeliversNormalized σ input ↔ KeepsTerminators input :=
  ⟨keepsTerminators_of_deliversNormalized, deliversNormalized_of_keepsTerminators⟩

/-- A line that ends in CR LF is delivered with two line terminators. -/
theorem not_deliversNormalized_crlf :
    ¬ DeliversNormalized Unit [0x61, UChar.cr, UChar.nl] := by
  intro h
  have := keepsTerminators_of_deliversNormalized h
  simp [KeepsTerminators, crlfCount, crlfFrom] at this

end CifApi
