/-
The lines of a text: what stands between its line feeds. A text always has at least one line,
and a line feed at its end opens a last, empty one. Main statement: the lines joined by line
feeds are the text again (`join_lines`).
-/
import Backtrack.Text

namespace Backtrack.Text

/-- The pieces of a text between its line feeds. -/
def lines : Text → List Text
  | [] => [[]]
  | c :: t =>
    if c = '\n' then [] :: lines t
    else match lines t with
      | [] => [[c]]
      | l :: ls => (c :: l) :: ls

/-- The byte position at which the last line of a text starts: behind its last line feed. -/
def lastLineStart (t : Text) : Nat :=
  size (t.reverse.dropWhile (· ≠ '\n'))

/-- Pieces put together again, with a line feed between any two. -/
def joinLines : List Text → Text
  | [] => []
  | [l] => l
  | l :: ls => l ++ '\n' :: joinLines ls

theorem lines_ne_nil (t : Text) : lines t ≠ [] := by
  cases t with
  | nil => simp [lines]
  | cons c t =>
    rw [lines]
    split
    · simp
    · split <;> simp

theorem lines_newline (t : Text) : lines ('\n' :: t) = [] :: lines t := by
  rw [lines, if_pos rfl]

theorem lines_cons {c : Char} (hc : c ≠ '\n') {t l : Text} {ls : List Text} (h : lines t = l :: ls) :
    lines (c :: t) = (c :: l) :: ls := by
  rw [lines, if_neg hc, h]

/-- Where two texts meet, the last line of the first and the first line of the second are one. -/
theorem lines_append {s r l m : Text} {ls ms : List Text} (hs : lines s = ls ++ [l])
    (hr : lines r = m :: ms) : lines (s ++ r) = ls ++ (l ++ m) :: ms := by
  induction s generalizing ls l with
  | nil =>
    obtain ⟨rfl, hl⟩ := List.append_eq_singleton_iff.1 hs.symm |>.resolve_right (by simp)
    cases hl
    exact hr
  | cons c s ih =>
    obtain ⟨k, ks, hk⟩ := List.exists_cons_of_ne_nil (lines_ne_nil s)
    by_cases hc : c = '\n'
    · subst hc
      rw [lines_newline, hk] at hs
      cases ls with
      | nil => cases hs
      | cons x ls =>
        -- the line in front of the line feed is whole, so it is one of `ls`
        rw [List.cons_append, List.cons.injEq] at hs
        obtain ⟨rfl, hks⟩ := hs
        rw [List.cons_append, lines_newline, ih (hk.trans hks)]
        rfl
    · rw [lines_cons hc hk] at hs
      -- the character belongs to the first line, which may be the last one as well
      cases ls with
      | nil =>
        cases hs
        have hlines : lines (s ++ r) = [] ++ (k ++ m) :: ms := ih hk
        exact lines_cons hc hlines
      | cons x ls =>
        rw [List.cons_append, List.cons.injEq] at hs
        obtain ⟨rfl, hks⟩ := hs
        have hlines : lines (s ++ r) = (k :: ls) ++ (l ++ m) :: ms :=
          ih (hk.trans (congrArg (k :: ·) hks))
        exact lines_cons hc hlines

/-- The first line of a text is what it has in front of its first line feed. -/
theorem takeWhile_of_lines {t l : Text} {ls : List Text} (h : t.lines = l :: ls) :
    t.takeWhile (· ≠ '\n') = l := by
  induction t generalizing l ls with
  | nil =>
    cases h
    rfl
  | cons c t ih =>
    obtain ⟨k, ks, hk⟩ := List.exists_cons_of_ne_nil (lines_ne_nil t)
    by_cases hc : c = '\n'
    · subst hc
      rw [lines_newline] at h
      cases h
      rfl
    · rw [lines_cons hc hk] at h
      cases h
      rw [List.takeWhile_cons_of_pos (by simpa using hc), ih hk]

theorem join_lines (t : Text) : joinLines (lines t) = t := by
  induction t with
  | nil => rfl
  | cons c t ih =>
    rw [lines]
    split
    · next h =>
      subst h
      cases hl : lines t with
      | nil => exact absurd hl (lines_ne_nil t)
      | cons l ls => rw [hl] at ih; simp [joinLines, ih]
    · split
      · next hl => exact absurd hl (lines_ne_nil t)
      · next l ls hl =>
        rw [hl] at ih
        cases ls with
        | nil => simpa [joinLines] using ih
        | cons m ls => simpa [joinLines] using ih

end Backtrack.Text
