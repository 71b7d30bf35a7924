/-
  OverlayCensus — blank characters, trimming and splitting of text.

  * `isBlank` is the Unicode property `White_Space`; `blankRanges` is its table;
  * `trim` drops the blanks at both ends of a text, `words` cuts a text at
    every run of blanks, and `splitLast` cuts it at the last occurrence of one
    character;
  * `splitLast_eq_some_iff`: the part behind the cut is free of the character,
    and every text that has the character is cut.
-/

namespace OverlayCensus.Text

/-! ## Blank characters -/

/-- The code points with the Unicode property `White_Space`, as closed ranges
    in increasing order. -/
def blankRanges : List (Nat × Nat) :=
  [(0x0009, 0x000D), (0x0020, 0x0020), (0x0085, 0x0085), (0x00A0, 0x00A0), (0x1680, 0x1680),
   (0x2000, 0x200A), (0x2028, 0x2029), (0x202F, 0x202F), (0x205F, 0x205F), (0x3000, 0x3000)]

/-- Whether a character separates words. -/
def isBlank (c : Char) : Bool :=
  blankRanges.any fun r => r.1 ≤ c.toNat && c.toNat ≤ r.2

/-! ## Trimming -/

/-- The characters from the first that is not blank. -/
def trimStart (cs : List Char) : List Char :=
  cs.dropWhile isBlank

/-- The characters up to the last that is not blank. -/
def trimEnd (cs : List Char) : List Char :=
  (cs.reverse.dropWhile isBlank).reverse

/-- The characters between the blanks at the two ends. -/
def trimChars (cs : List Char) : List Char :=
  trimEnd (trimStart cs)

/-- A text without the blanks at its two ends. -/
def trim (s : String) : String :=
  String.ofList (trimChars s.toList)

@[simp] theorem toList_trim (s : String) : (trim s).toList = trimChars s.toList := by
  simp [trim]

/-! ## Splitting -/

/-- The words of a text: its longest runs of characters that are not blank. -/
def splitWords : List Char → List (List Char)
  | [] => []
  | c :: cs =>
    if isBlank c then splitWords cs
    else
      match cs, splitWords cs with
      | d :: _, w :: ws => if isBlank d then [c] :: w :: ws else (c :: w) :: ws
      | _, ws => [c] :: ws

/-- The words of a text, as texts. -/
def words (s : String) : List String :=
  (splitWords s.toList).map String.ofList

/-- The parts of a text before and behind the last occurrence of `sep`. -/
def splitLast (sep : Char) : List Char → Option (List Char × List Char)
  | [] => none
  | c :: cs =>
    match splitLast sep cs with
    | some (front, back) => some (c :: front, back)
    | none => if c = sep then some ([], cs) else none

theorem splitLast_eq_none_iff {sep : Char} {cs : List Char} :
    splitLast sep cs = none ↔ sep ∉ cs := by
  induction cs with
  | nil => simp [splitLast]
  | cons c cs ih =>
    simp only [splitLast]
    cases h : splitLast sep cs with
    | some p => simp [h] at ih; simp [ih]
    | none =>
      have hn : sep ∉ cs := ih.1 h
      by_cases hc : c = sep
      · simp [hc]
      · simp [hc, hn, Ne.symm hc]

theorem splitLast_append {sep : Char} {back : List Char} (h : sep ∉ back) (front : List Char) :
    splitLast sep (front ++ sep :: back) = some (front, back) := by
  induction front with
  | nil => simp [splitLast, splitLast_eq_none_iff.2 h]
  | cons c front ih => simp [splitLast, ih]

/-- A cut is at the last occurrence: the part behind it holds no other. -/
theorem splitLast_eq_some_iff {sep : Char} {cs front back : List Char} :
    splitLast sep cs = some (front, back) ↔ cs = front ++ sep :: back ∧ sep ∉ back := by
  constructor
  · intro h
    induction cs generalizing front with
    | nil => simp [splitLast] at h
    | cons c cs ih =>
      simp only [splitLast] at h
      cases hs : splitLast sep cs with
      | some p =>
        obtain ⟨f, b⟩ := p
        simp only [hs, Option.some.injEq, Prod.mk.injEq] at h
        obtain ⟨rfl, rfl⟩ := h
        obtain ⟨he, hb⟩ := ih hs
        exact ⟨by simp [he], hb⟩
      | none =>
        simp only [hs] at h
        by_cases hc : c = sep
        · simp only [hc, if_true, Option.some.injEq, Prod.mk.injEq] at h
          obtain ⟨rfl, rfl⟩ := h
          exact ⟨by simp [hc], splitLast_eq_none_iff.1 hs⟩
        · simp [hc] at h
  · rintro ⟨rfl, hb⟩
    exact splitLast_append hb front

end OverlayCensus.Text
