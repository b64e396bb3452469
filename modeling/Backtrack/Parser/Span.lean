/-
Spans: the characters of a class at the cursor, up to the first one that is outside of it. Its byte
position is searched for, and the text is cut there. Main statement: the cut is behind the longest
front of the text that belongs to the class (`scan_of_longestFront`). The front may be empty, so
reading it never fails; `nonEmpty` asks for at least one character.
-/
import Backtrack.CharClass
import Backtrack.Parser

namespace Backtrack

namespace Text

/-! ## The front of a text that belongs to a class -/

/-- The text begins with a character of a class. -/
def opensWith (keep : Char → Bool) (t : Text) : Bool := t.head?.any keep

@[simp] theorem opensWith_nil (keep : Char → Bool) : opensWith keep [] = false := rfl

@[simp] theorem opensWith_cons (keep : Char → Bool) (ch : Char) (t : Text) :
    opensWith keep (ch :: t) = keep ch := rfl

/-- The span is a front of the text with characters of a class only, and the rest of the text does
not go on with one more of them. -/
structure LongestFront (keep : Char → Bool) (t span rest : Text) : Prop where
  text : t = span ++ rest
  inside : ∀ ch ∈ span, keep ch = true
  outside : rest.opensWith keep = false

theorem LongestFront.of_takeWhile (keep : Char → Bool) (t : Text) :
    LongestFront keep t (t.takeWhile keep) (t.dropWhile keep) := by
  induction t with
  | nil => exact ⟨rfl, List.forall_mem_nil _, rfl⟩
  | cons ch t ih =>
    cases hch : keep ch with
    | true =>
      simp only [List.takeWhile_cons, List.dropWhile_cons, hch, if_true]
      exact ⟨congrArg (ch :: ·) ih.text, List.forall_mem_cons.2 ⟨hch, ih.inside⟩, ih.outside⟩
    | false =>
      simp only [List.takeWhile_cons, List.dropWhile_cons, hch, Bool.false_eq_true, if_false]
      exact ⟨rfl, List.forall_mem_nil _, hch⟩

/-! ## The search for its end -/

/-- The byte position of the first character outside a class, or of the end where there is none. -/
def spanEnd (keep : Char → Bool) (t : Text) : Nat :=
  match t.charIndices.find? fun (_, ch) => !keep ch with
  | some (index, _) => index
  | none => t.size

section

variable {keep : Char → Bool} {t span rest s r : Text}

/-- The search passes the front, and stops at the character behind it or at the end of the text. -/
theorem LongestFront.spanEnd_eq (h : LongestFront keep t span rest) : t.spanEnd keep = span.size := by
  have hpassed : (span.charIndices.find? fun (_, ch) => !keep ch) = none := by
    rw [List.find?_eq_none]
    intro x hx
    simp [h.inside x.2 (snd_mem_of_mem_charIndices hx)]
  have houtside := h.outside
  rw [h.text, spanEnd, charIndices_append, List.find?_append, hpassed, Option.none_or]
  cases rest with
  | nil =>
    -- no character is left, so the search answers with the size of the whole text
    simp [charIndicesFrom]
  | cons ch rest =>
    rw [opensWith_cons] at houtside
    simp [charIndicesFrom, houtside]

/-- Where the search stops the text can be cut. -/
theorem LongestFront.before?_spanEnd (h : LongestFront keep t span rest) :
    t.before? (t.spanEnd keep) = some span := by
  rw [h.spanEnd_eq, h.text, before?_append_size]

/-- There is one way only to cut a text behind its longest front. -/
theorem LongestFront.unique (h : LongestFront keep t span rest) (h' : LongestFront keep t s r) :
    s = span ∧ r = rest := by
  -- both fronts end where the search stops
  obtain rfl : s = span := Option.some.inj (h'.before?_spanEnd.symm.trans h.before?_spanEnd)
  exact ⟨rfl, List.append_cancel_left (h'.text.symm.trans h.text)⟩

end

end Text

namespace Parser

variable {keep : Char → Bool} {c : Cursor} {span rest : Text}

/-- Captures the text in front of the first character outside a class, and passes it. -/
def scan (keep : Char → Bool) (c : Cursor) : Text × Cursor :=
  let stop := c.remaining.spanEnd keep
  ((c.remaining.before? stop).getD [], c.advance stop)

/-- The slice and the step forward agree: both end where the front of the class does. -/
theorem scan_of_longestFront (h : Text.LongestFront keep c.remaining span rest) :
    scan keep c = (span, c.advance span.size) := by
  rw [scan, h.before?_spanEnd, h.spanEnd_eq, Option.getD_some]

/-- Reads the characters that satisfy a predicate. -/
def takeWhile (keep : Char → Bool) : Parser Text := fun c => .ok (scan keep c)

/-- Reads the characters that do not satisfy a predicate. -/
def takeTill (stop : Char → Bool) : Parser Text := fun c => .ok (scan (fun ch => !stop ch) c)

theorem takeWhile_eq (keep : Char → Bool) (c : Cursor) :
    takeWhile keep c =
      .ok (c.remaining.takeWhile keep, c.advance (Text.size (c.remaining.takeWhile keep))) := by
  rw [takeWhile, scan_of_longestFront (.of_takeWhile keep c.remaining)]

/-- Refuses the values that count as empty. The failure is reported at the start, with nothing
said about what was expected, so that a choice around it adds nothing of its own. -/
def refuseEmpty {α : Type} (empty : α → Bool) (p : Parser α) : Parser α := fun c => do
  let (a, next) ← p c
  if empty a then .error (c.fail "") else return (a, next)

/-- Asks for a span that is not empty. -/
def nonEmpty (p : Parser Text) : Parser Text := refuseEmpty List.isEmpty p

def takeWhile1 (keep : Char → Bool) : Parser Text := nonEmpty (takeWhile keep)

def takeTill1 (stop : Char → Bool) : Parser Text := nonEmpty (takeTill stop)

/-- Skips any spaces. -/
def spaces : Parser Unit := (takeWhile isSpace).map fun _ => ()

end Parser

end Backtrack
