/-
The excerpt around a location. Main statement: it shows the lines from two before to two behind the
line of the location, as far as the text has them, each as it stands, and a pointer right below the
line of the location, whose caret stands as far in as the location does in the line above it
(`contextLines_window`).

The excerpt is made by going through the numbered lines of the text, which are taken apart at the ends
of the window and around the line of the location: the first part is skipped, three parts are shown,
and at the last one the excerpt is at its end.
-/
import Backtrack.Proofs.Places
import Mathlib.Data.List.Intervals

namespace Backtrack

namespace Text

/-- A line of a text as an excerpt shows it, behind a mark and its number. -/
def shown (t : Text) (mark : String) (number : Nat) : String :=
  mark ++ toString number ++ " | " ++ String.ofList (t.line number)

/-- Numbering the lines of a text finds each of them under its own number. -/
theorem zipIdx_lines (t : Text) :
    t.lines.zipIdx 1 =
      (List.Ico 1 (t.lines.length + 1)).map fun number => (t.line number, number) := by
  refine List.ext_getElem (by simp) fun i hi _ => ?_
  have hlength : i < t.lines.length := by simpa using hi
  simp only [List.Ico, List.getElem_zipIdx, List.getElem_map, List.getElem_range', Nat.one_mul,
    line, Nat.add_sub_cancel_left, List.getD_eq_getElem?_getD, List.getElem?_eq_getElem hlength,
    Option.getD_some]

theorem size_spaces (n : Nat) : size (List.replicate n ' ') = n := by
  induction n with
  | zero => rfl
  | succ n ih =>
    rw [List.replicate_succ, size_cons, ih, Nat.add_comm]
    rfl

end Text

namespace Location

/-! ## What an excerpt has of a line -/

section

variable {here : Place} {first last number : Nat} {content : Text} {xs : List (Text × Nat)}

theorem excerptOf_own : excerptOf here content here.line = [.source true here.line content,
    .pointer (Text.size (ExcerptLine.margin true here.line).toList + here.offset)] := by
  unfold excerptOf
  rw [beq_self_eq_true]
  rfl

theorem excerptOf_other (h : number ≠ here.line) :
    excerptOf here content number = [.source false number content] := by
  unfold excerptOf
  rw [beq_eq_false_iff_ne.2 h]
  rfl

theorem excerptFrom_skip (h : ∀ x ∈ xs, x.2 < first) (ys : List (Text × Nat)) :
    excerptFrom here first last (xs ++ ys) = excerptFrom here first last ys := by
  induction xs with
  | nil => rfl
  | cons x xs ih =>
    obtain ⟨hx, hxs⟩ := List.forall_mem_cons.1 h
    rw [List.cons_append, excerptFrom, if_pos hx, ih hxs]

theorem excerptFrom_show (h : ∀ x ∈ xs, first ≤ x.2 ∧ x.2 ≤ last) (ys : List (Text × Nat)) :
    excerptFrom here first last (xs ++ ys) =
      (xs.flatMap fun x => excerptOf here x.1 x.2) ++ excerptFrom here first last ys := by
  induction xs with
  | nil => rfl
  | cons x xs ih =>
    obtain ⟨⟨hfirst, hlast⟩, hxs⟩ := List.forall_mem_cons.1 h
    rw [List.cons_append, excerptFrom, if_neg (by omega), if_neg (by omega), ih hxs,
      List.flatMap_cons, List.append_assoc]

/-- The first line behind the window ends the excerpt, whatever is behind that line. -/
theorem excerptFrom_stop (hwindow : first ≤ last) (h : ∀ x ∈ xs, last < x.2) :
    excerptFrom here first last xs = [] := by
  cases xs with
  | nil => rfl
  | cons x xs =>
    have hx := h x List.mem_cons_self
    rw [excerptFrom, if_neg (by omega), if_pos hx]

end

/-! ## The window -/

/-- The number of the first line an excerpt shows. -/
def windowFirst (l : Location) : Nat := max 1 (l.place.line - 2)

/-- The number of the last line an excerpt shows. -/
def windowLast (l : Location) : Nat := min l.source.lines.length (l.place.line + 2)

/-- How many bytes in the caret stands: behind what is in front of the marked line, as far as the
location in that line. -/
def caret (l : Location) : Nat :=
  Text.size ("  > " ++ toString l.place.line ++ " | ").toList + l.place.offset

/-- The line an excerpt has below the marked one. -/
def pointerLine (l : Location) : String :=
  String.ofList (List.replicate l.caret ' ') ++ "^--- here"

variable (l : Location)

theorem window_bounds : 1 ≤ l.windowFirst ∧ l.windowFirst ≤ l.place.line ∧
    l.place.line ≤ l.windowLast ∧ l.windowLast ≤ l.source.lines.length := by
  obtain ⟨ls, s, m, ms, hlines, hplace, -⟩ := l.exists_lines
  have hline : l.place.line = ls.length + 1 := by rw [hplace]
  have hcount : l.source.lines.length = ls.length + 1 + ms.length := by
    rw [hlines, List.length_append, List.length_cons]
    omega
  rw [windowFirst, windowLast]
  omega

/-- The numbers of the lines, taken apart at the ends of the window and around the own line. -/
theorem numbers_eq_window :
    List.Ico 1 (l.source.lines.length + 1) =
      List.Ico 1 l.windowFirst ++ (List.Ico l.windowFirst l.place.line ++
        (l.place.line :: List.Ico (l.place.line + 1) (l.windowLast + 1) ++
          List.Ico (l.windowLast + 1) (l.source.lines.length + 1))) := by
  obtain ⟨hone, hbefore, hbehind, hcount⟩ := l.window_bounds
  -- the ends of the window come in this order, so the intervals meet
  rw [← List.Ico.eq_cons (by omega), List.Ico.append_consecutive (by omega) (by omega),
    List.Ico.append_consecutive hbefore (by omega), List.Ico.append_consecutive hone (by omega)]

/-- The lines with these numbers, each with its own. -/
def numbered (first last : Nat) : List (Text × Nat) :=
  (List.Ico first last).map fun number => (l.source.line number, number)

/-- The numbered lines, cut where their numbers are. -/
theorem zipIdx_eq_window :
    l.source.lines.zipIdx 1 = l.numbered 1 l.windowFirst ++
      (l.numbered l.windowFirst l.place.line ++ ([(l.source.line l.place.line, l.place.line)] ++
        (l.numbered (l.place.line + 1) (l.windowLast + 1) ++
          l.numbered (l.windowLast + 1) (l.source.lines.length + 1)))) := by
  rw [Text.zipIdx_lines, numbers_eq_window]
  simp only [numbered, List.map_append, List.map_cons, List.cons_append, List.nil_append]

theorem snd_of_mem_numbered {first last : Nat} {x : Text × Nat} (h : x ∈ l.numbered first last) :
    first ≤ x.2 ∧ x.2 < last := by
  obtain ⟨number, hnumber, rfl⟩ := List.mem_map.1 h
  exact List.Ico.mem.1 hnumber

/-- Lines of the window without the own one are shown just as they stand. -/
theorem excerptFrom_near {first last : Nat}
    (h : l.windowFirst ≤ first ∧ last ≤ l.place.line ∨
      l.place.line < first ∧ last ≤ l.windowLast + 1) (ys : List (Text × Nat)) :
    excerptFrom l.place l.windowFirst (l.place.line + 2) (l.numbered first last ++ ys) =
      ((List.Ico first last).map fun number => .source false number (l.source.line number)) ++
        excerptFrom l.place l.windowFirst (l.place.line + 2) ys := by
  obtain ⟨-, hbefore, hbehind, -⟩ := l.window_bounds
  have hlast : l.windowLast ≤ l.place.line + 2 := Nat.min_le_right _ _
  rw [excerptFrom_show fun x hx => ?_]
  · congr 1
    rw [numbered, List.flatMap_map, List.map_eq_flatMap]
    refine List.flatMap_congr fun number hnumber => ?_
    rw [List.Ico.mem] at hnumber
    exact excerptOf_other (by omega)
  · have hx := l.snd_of_mem_numbered hx
    omega

theorem excerpt_eq_window :
    l.excerpt =
      ((List.Ico l.windowFirst l.place.line).map fun number =>
        .source false number (l.source.line number)) ++
      ([.source true l.place.line (l.source.line l.place.line), .pointer l.caret] ++
      ((List.Ico (l.place.line + 1) (l.windowLast + 1)).map fun number =>
        .source false number (l.source.line number))) := by
  obtain ⟨-, hbefore, -, -⟩ := l.window_bounds
  have hbefore' : ∀ x ∈ l.numbered 1 l.windowFirst, x.2 < l.windowFirst :=
    fun x hx => (l.snd_of_mem_numbered hx).2
  -- where the window ends in front of the last line, it ends two lines below its own
  have hbehind' : ∀ x ∈ l.numbered (l.windowLast + 1) (l.source.lines.length + 1),
      l.place.line + 2 < x.2 := by
    intro x hx
    have hx := l.snd_of_mem_numbered hx
    rw [windowLast] at hx
    omega
  have hown : ∀ x ∈ [(l.source.line l.place.line, l.place.line)],
      l.windowFirst ≤ x.2 ∧ x.2 ≤ l.place.line + 2 :=
    List.forall_mem_singleton.2 ⟨hbefore, Nat.le_add_right _ _⟩
  rw [excerpt, zipIdx_eq_window]
  show excerptFrom l.place l.windowFirst _ _ = _
  rw [excerptFrom_skip hbefore', l.excerptFrom_near (.inl ⟨Nat.le_refl _, Nat.le_refl _⟩),
    excerptFrom_show hown, l.excerptFrom_near (.inr ⟨Nat.lt_succ_self _, Nat.le_refl _⟩),
    excerptFrom_stop (by omega) hbehind', List.flatMap_singleton, excerptOf_own, List.append_nil]
  rfl

/-! ## The caret -/

/-- The caret stands below the location: what the marked line has behind as many bytes, the line itself
has behind the offset. -/
theorem after?_caret :
    Text.after? (l.source.shown "  > " l.place.line).toList l.caret =
      Text.after? (l.source.line l.place.line) l.place.offset := by
  rw [Text.shown, String.toList_append, String.toList_ofList, caret, Text.after?_append_add]

/-- From the offset on, the line of a boundary goes on as the text does from there. -/
theorem after?_offset (h : l.source.IsBoundary l.position) :
    Text.after? (l.source.line l.place.line) l.place.offset =
      some (l.remaining.takeWhile (· ≠ '\n')) := by
  obtain ⟨ls, s, m, ms, hlines, hplace, hboundary⟩ := l.exists_lines
  obtain ⟨-, hremaining⟩ := hboundary h
  rw [hplace, Text.line_eq hlines, Text.after?_append_size, Text.takeWhile_of_lines hremaining]

theorem after?_pointerLine : Text.after? l.pointerLine.toList l.caret = some "^--- here".toList := by
  have hcut := Text.after?_append_size (List.replicate l.caret ' ') "^--- here".toList
  rw [Text.size_spaces] at hcut
  rw [pointerLine, String.toList_append, String.toList_ofList, hcut]

end Location

/-- What is shown around a location: the lines in the window in their order, unaltered, and below the
line of the location, the only one that is marked, the pointer. Its caret stands where the location
is in the line above it. -/
theorem contextLines_window (l : Location) :
    (1 ≤ l.windowFirst ∧ l.windowFirst ≤ l.place.line ∧ l.place.line ≤ l.windowLast ∧
      l.windowLast ≤ l.source.lines.length) ∧
    l.contextLines =
      (List.Ico l.windowFirst l.place.line).map (l.source.shown "    ") ++
      ([l.source.shown "  > " l.place.line, l.pointerLine] ++
      (List.Ico (l.place.line + 1) (l.windowLast + 1)).map (l.source.shown "    ")) ∧
    Text.after? l.pointerLine.toList l.caret = some "^--- here".toList ∧
    Text.after? (l.source.shown "  > " l.place.line).toList l.caret =
      Text.after? (l.source.line l.place.line) l.place.offset ∧
    (l.source.IsBoundary l.position →
      Text.after? (l.source.shown "  > " l.place.line).toList l.caret =
        some (l.remaining.takeWhile (· ≠ '\n'))) := by
  refine ⟨l.window_bounds, ?_, l.after?_pointerLine, l.after?_caret,
    fun h => l.after?_caret.trans (l.after?_offset h)⟩
  rw [Location.contextLines, l.excerpt_eq_window, List.map_append, List.map_append, List.map_map,
    List.map_map]
  rfl

/-- In the third of six lines, behind a letter of two bytes and one of a single byte. -/
theorem contextLines_window_accents :
    Text.IsBoundary "first\ntwo\nété x\nfour\nfive\nsix".toList 13 ∧
    (Location.contextLines ⟨"first\ntwo\nété x\nfour\nfive\nsix".toList, 13⟩).length = 6 ∧
    Text.after? (Text.shown "first\ntwo\nété x\nfour\nfive\nsix".toList "  > " 3).toList 11 =
      some "é x".toList := by
  have hboundary : Text.IsBoundary "first\ntwo\nété x\nfour\nfive\nsix".toList 13 := by decide
  obtain ⟨-, hlines, -, -, hcaret⟩ :=
    contextLines_window ⟨"first\ntwo\nété x\nfour\nfive\nsix".toList, 13⟩
  refine ⟨hboundary, ?_, (hcaret hboundary).trans rfl⟩
  rw [hlines]
  rfl

end Backtrack
