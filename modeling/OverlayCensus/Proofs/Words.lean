/-
  OverlayCensus — the words of a text.

  A text falls apart into words at its blanks in one way only, whatever blanks stand between the
  words and around them.

  * `Spaced`: a text in which words stand in order, between blanks;
  * `words_eq_iff`: `words` finds these words, and there are no others.
-/
import Mathlib
import OverlayCensus.Text.Blank

namespace OverlayCensus.Text

/-- A text that can stand as a word: it is not empty and holds no blank. -/
structure IsWord (w : String) : Prop where
  ne_empty : w ≠ ""
  not_blank : ∀ c ∈ w.toList, isBlank c = false

/-- A text in which words stand in order.  Behind a word there is a blank or nothing at all. -/
inductive Spaced : List String → List Char → Prop
  | nil : Spaced [] []
  | blank {ws : List String} {c : Char} {cs : List Char} :
      isBlank c = true → Spaced ws cs → Spaced ws (c :: cs)
  | word {w : String} {ws : List String} {cs : List Char} :
      IsWord w → (∀ c ∈ cs.head?, isBlank c = true) → Spaced ws cs →
        Spaced (w :: ws) (w.toList ++ cs)

variable {c : Char} {cs w : List Char} {ws : List String} {s : String}

/-! ## Cutting at blanks -/

theorem splitWords_blank (hc : isBlank c = true) : splitWords (c :: cs) = splitWords cs :=
  if_pos hc

/-- A character that no blank follows belongs to the word behind it. -/
theorem splitWords_cons {d : Char} {word : List Char} {rest : List (List Char)}
    (hc : isBlank c = false) (hd : isBlank d = false)
    (h : splitWords (d :: cs) = word :: rest) :
    splitWords (c :: d :: cs) = (c :: word) :: rest := by
  refine (if_neg (by simp [hc])).trans ?_
  rw [h]
  exact if_neg (by simp [hd])

/-- A character that a blank follows is a word. -/
theorem splitWords_last (hc : isBlank c = false) (hcs : ∀ d ∈ cs.head?, isBlank d = true) :
    splitWords (c :: cs) = [c] :: splitWords cs := by
  refine (if_neg (by simp [hc])).trans ?_
  cases cs with
  | nil => rfl
  | cons d cs =>
    cases splitWords (d :: cs) with
    | nil => rfl
    | cons word rest => exact if_pos (hcs d rfl)

/-- **A word in front** is cut off whole. -/
theorem splitWords_append (hne : w ≠ []) (hw : ∀ c ∈ w, isBlank c = false)
    (hcs : ∀ d ∈ cs.head?, isBlank d = true) : splitWords (w ++ cs) = w :: splitWords cs := by
  induction w with
  | nil => exact absurd rfl hne
  | cons c w ih =>
    obtain ⟨hc, hw⟩ := List.forall_mem_cons.1 hw
    cases w with
    | nil => exact splitWords_last hc hcs
    | cons d w => exact splitWords_cons hc (hw d List.mem_cons_self) (ih (List.cons_ne_nil _ _) hw)

theorem splitWords_of_spaced (h : Spaced ws cs) : splitWords cs = ws.map String.toList := by
  induction h with
  | nil => rfl
  | blank hc _ ih => rw [splitWords_blank hc, ih]
  | word hw hcs _ ih =>
    have hne := fun hnil => hw.ne_empty (String.toList_eq_nil_iff.1 hnil)
    rw [splitWords_append hne hw.not_blank hcs, ih, List.map_cons]

/-! ## Every text has words -/

/-- A character in front of a word makes it longer, and before a blank it is a word. -/
theorem Spaced.cons (h : Spaced ws cs) (hc : isBlank c = false) :
    ∃ ws', Spaced ws' (c :: cs) := by
  have hword : ∀ w : List Char, (∀ d ∈ w, isBlank d = false) → IsWord (String.ofList (c :: w)) := by
    refine fun w hw => ⟨fun hempty => ?_, ?_⟩
    · exact List.cons_ne_nil _ _ (String.ofList_eq_empty_iff.1 hempty)
    · rw [String.toList_ofList]
      exact List.forall_mem_cons.2 ⟨hc, hw⟩
  have halone : (∀ d ∈ cs.head?, isBlank d = true) → ∃ ws', Spaced ws' (c :: cs) := by
    intro hcs
    have hfront := Spaced.word (hword [] (by simp)) hcs h
    rw [String.toList_ofList] at hfront
    exact ⟨_, hfront⟩
  cases h with
  | nil => exact halone (by simp)
  | blank hd => exact halone (by simpa using hd)
  | @word w ws cs hw hcs h =>
    have hlonger := Spaced.word (hword w.toList hw.not_blank) hcs h
    rw [String.toList_ofList] at hlonger
    exact ⟨_, hlonger⟩

theorem exists_spaced (cs : List Char) : ∃ ws, Spaced ws cs := by
  induction cs with
  | nil => exact ⟨[], .nil⟩
  | cons c cs ih =>
    obtain ⟨ws, h⟩ := ih
    cases hc : isBlank c with
    | true => exact ⟨ws, .blank hc h⟩
    | false => exact h.cons hc

theorem words_of_spaced (h : Spaced ws s.toList) : words s = ws := by
  rw [words, splitWords_of_spaced h, List.map_map]
  exact List.map_id'' (fun w => String.ofList_toList) ws

/-- **The words of a text** are those that stand in it, in order. -/
theorem words_eq_iff : words s = ws ↔ Spaced ws s.toList := by
  refine ⟨?_, words_of_spaced⟩
  rintro rfl
  obtain ⟨ws, h⟩ := exists_spaced s.toList
  rwa [words_of_spaced h]

end OverlayCensus.Text
