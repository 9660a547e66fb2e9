/-!
# Lines

A line feed ends one line and begins the next, so that a text has one line more than line feeds.

* `Text.splitLines`, `Text.lines`: the lines of a text;
* `Text.intercalate_splitLines`, `Text.not_mem_of_mem_splitLines`: put together again, the lines are
  the text, and none of them holds a line feed.
-/

namespace Micro8086.Text

/-- The lines of a text as lists of characters. -/
def splitLines : List Char → List (List Char)
  | [] => [[]]
  | c :: cs =>
    if c = '\n' then
      [] :: splitLines cs
    else
      match splitLines cs with
      | [] => [[c]]
      | line :: rest => (c :: line) :: rest

/-- The lines of a text. -/
def lines (s : String) : List String := (splitLines s.toList).map String.ofList

theorem splitLines_ne_nil (cs : List Char) : splitLines cs ≠ [] := by
  cases cs with
  | nil => simp [splitLines]
  | cons c cs =>
    unfold splitLines
    split
    · simp
    · split <;> simp

theorem intercalate_splitLines (cs : List Char) : ['\n'].intercalate (splitLines cs) = cs := by
  induction cs with
  | nil => rfl
  | cons c cs ih =>
    cases h : splitLines cs with
    | nil => exact absurd h (splitLines_ne_nil cs)
    | cons line rest =>
      rw [h] at ih
      by_cases hc : c = '\n'
      · rw [splitLines, if_pos hc, h, hc, ← ih]
        rfl
      · rw [splitLines, if_neg hc, h, ← ih]
        cases rest <;> rfl

theorem not_mem_of_mem_splitLines {cs line : List Char} (h : line ∈ splitLines cs) : '\n' ∉ line := by
  induction cs generalizing line with
  | nil => simp_all [splitLines]
  | cons c cs ih =>
    unfold splitLines at h
    split at h
    · rcases List.mem_cons.1 h with rfl | h
      · simp
      · exact ih h
    · next hc =>
      split at h
      · next hs => exact absurd hs (splitLines_ne_nil cs)
      · next first rest hs =>
        rcases List.mem_cons.1 h with rfl | h
        · intro hm
          rcases List.mem_cons.1 hm with hm | hm
          · exact hc hm.symm
          · exact ih (hs ▸ List.mem_cons_self) hm
        · exact ih (hs ▸ List.mem_cons_of_mem _ h)

end Micro8086.Text
