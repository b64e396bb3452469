/-
Lines and offsets as places of a text. Main statement: the place that is reported for a boundary of a
text is the one that leads back to it, by counting over the lines in front of it, and there is no other;
a boundary further on has a later place, and any other position has the place of the end
(`place_exact`).

The line is found by counting line feeds and the offset by going back to the last one. Both are told by
what stands in front of the position, whose last line is cut out of a line of the whole text
(`exists_lines`).
-/
import Backtrack.Location
import Mathlib.Algebra.GroupWithZero.Nat
import Mathlib.Data.List.Induction

namespace Backtrack

namespace Text

/-! ## Lines -/

/-- The bytes of some lines, with a line feed behind each of them. -/
def extent (ls : List Text) : Nat := (ls.map size).sum + ls.length

theorem extent_append (ls ms : List Text) : extent (ls ++ ms) = extent ls + extent ms := by
  simp only [extent, List.map_append, List.sum_append, List.length_append]
  omega

theorem extent_singleton (l : Text) : extent [l] = l.size + 1 := by
  simp [extent]

/-! ## The end of a text -/

/-- The last line of a text, and the lines before it. -/
structure EndsIn (t : Text) (ls : List Text) (l : Text) : Prop where
  lines : t.lines = ls ++ [l]
  count : ls.length = t.count '\n'
  start : t.lastLineStart = extent ls
  size : t.size = extent ls + l.size

namespace EndsIn

variable {t l : Text} {ls : List Text}

theorem empty : EndsIn [] [] [] := ⟨rfl, rfl, rfl, rfl⟩

theorem newline (h : EndsIn t ls l) : EndsIn (t ++ ['\n']) (ls ++ [l]) [] where
  lines := by
    rw [lines_append h.lines (lines_newline []), List.append_nil, List.append_assoc]
    rfl
  count := by rw [List.length_append, List.count_append, h.count]; rfl
  start := by
    -- the last line starts right behind the line feed
    have hstart : (t ++ ['\n']).lastLineStart = 1 + Text.size t.reverse := by
      rw [lastLineStart, List.reverse_append]
      rfl
    rw [hstart, size_reverse, extent_append, extent_singleton, h.size]
    omega
  size := by
    have hnewline : '\n'.utf8Size = 1 := rfl
    rw [size_append, size_cons, size_nil, h.size, extent_append, extent_singleton, hnewline]
    omega

theorem char {c : Char} (hc : c ≠ '\n') (h : EndsIn t ls l) :
    EndsIn (t ++ [c]) ls (l ++ [c]) where
  lines := lines_append h.lines (lines_cons hc rfl)
  count := by rw [List.count_append, List.count_singleton, h.count]; simp [hc]
  start := by
    have hstart : (t ++ [c]).lastLineStart = t.lastLineStart := by
      rw [lastLineStart, List.reverse_append]
      simp [lastLineStart, hc]
    rw [hstart, h.start]
  size := by rw [size_append, size_append, h.size, Nat.add_assoc]

end EndsIn

theorem exists_endsIn (t : Text) : ∃ ls l, EndsIn t ls l := by
  induction t using List.reverseRecOn with
  | nil => exact ⟨[], [], .empty⟩
  | append_singleton t c ih =>
    obtain ⟨ls, l, h⟩ := ih
    by_cases hc : c = '\n'
    · subst hc
      exact ⟨_, _, h.newline⟩
    · exact ⟨_, _, h.char hc⟩

end Text

/-! ## Locations -/

namespace Location

variable {l : Location} {s r : Text}

theorem preceding_of_split (hs : l.source = s ++ r) (hp : s.size = l.position) :
    l.preceding = s := by
  rw [preceding, hs, ← hp, Text.before?_append_size, Option.getD_some]

/-- A position that is no boundary counts as the end. -/
theorem preceding_of_not_boundary (h : ¬ l.source.IsBoundary l.position) :
    l.preceding = l.source := by
  have hnone : l.source.before? l.position = none := by
    rw [Option.eq_none_iff_forall_ne_some]
    intro s hs
    obtain ⟨r, hsource, hp⟩ := Text.before?_eq_some_iff.1 hs
    exact h ⟨s, r, hsource, hp⟩
  rw [preceding, hnone, Option.getD_none]

/-- A location cuts its text in two; all of it comes first where the text cannot be cut. -/
theorem exists_cut (l : Location) : ∃ r, l.source = l.preceding ++ r ∧
    (l.source.IsBoundary l.position → l.preceding.size = l.position ∧ l.remaining = r) := by
  by_cases h : l.source.IsBoundary l.position
  · obtain ⟨s, r, hs, hp⟩ := h
    have hremaining : l.remaining = r := by
      rw [remaining, hs, ← hp, Text.after?_append_size, Option.getD_some]
    rw [preceding_of_split hs hp]
    exact ⟨r, hs, fun _ => ⟨hp, hremaining⟩⟩
  · rw [preceding_of_not_boundary h]
    exact ⟨[], (List.append_nil _).symm, fun hb => absurd hb h⟩

theorem place_of_endsIn {ls : List Text} {s : Text} (h : Text.EndsIn l.preceding ls s) :
    l.place = ⟨ls.length + 1, s.size⟩ := by
  have hoffset : l.preceding.size - l.preceding.lastLineStart = s.size := by
    rw [h.size, h.start]
    omega
  rw [place, ← h.count, hoffset]

/-- The line of a location is made of what the text before it ends with and of what follows. -/
theorem exists_lines (l : Location) : ∃ ls s m ms, l.source.lines = ls ++ (s ++ m) :: ms ∧
    l.place = ⟨ls.length + 1, s.size⟩ ∧
    (l.source.IsBoundary l.position →
      l.position = Text.extent ls + s.size ∧ l.remaining.lines = m :: ms) := by
  obtain ⟨r, hr, hboundary⟩ := l.exists_cut
  obtain ⟨ls, s, hs⟩ := Text.exists_endsIn l.preceding
  -- the last line in front and the first line behind are one line of the text
  obtain ⟨m, ms, hms⟩ := List.exists_cons_of_ne_nil (Text.lines_ne_nil r)
  refine ⟨ls, s, m, ms, ?_, place_of_endsIn hs, fun hb => ?_⟩
  · rw [hr]
    exact Text.lines_append hs.lines hms
  · obtain ⟨hposition, hremaining⟩ := hboundary hb
    rw [← hposition, hs.size, hremaining, hms]
    exact ⟨rfl, rfl⟩

end Location

/-! ## Places -/

/-- The line of a text with a number, counted from one. -/
def Text.line (t : Text) (number : Nat) : Text := t.lines.getD (number - 1) []

theorem Text.line_eq {t x : Text} {ls ms : List Text} (h : t.lines = ls ++ x :: ms) :
    t.line (ls.length + 1) = x := by
  rw [line, h, Nat.add_sub_cancel]
  simp

/-- Behind a line the next one begins. -/
theorem Text.extent_take_succ {t : Text} {n : Nat} (h : n < t.lines.length) :
    extent (t.lines.take (n + 1)) = extent (t.lines.take n) + ((t.line (n + 1)).size + 1) := by
  rw [List.take_succ_eq_append_getElem h, extent_append, extent_singleton, line,
    Nat.add_sub_cancel, List.getD_eq_getElem?_getD, List.getElem?_eq_getElem h, Option.getD_some]

theorem Text.extent_take_le (ls : List Text) {m n : Nat} (h : m ≤ n) :
    extent (ls.take m) ≤ extent (ls.take n) := by
  have hsplit := List.take_append_drop m (ls.take n)
  rw [List.take_take, Nat.min_eq_left h] at hsplit
  rw [← hsplit, extent_append]
  exact Nat.le_add_right _ _

namespace Place

/-- The place leads to a position: over the lines in front of its own, each with a line feed, and so
many bytes into its own. -/
structure LeadsTo (here : Place) (t : Text) (position : Nat) : Prop where
  line_pos : 1 ≤ here.line
  line_le : here.line ≤ t.lines.length
  offset_le : here.offset ≤ (t.line here.line).size
  position_eq : ((t.lines.take (here.line - 1)).map Text.size).sum + (here.line - 1) + here.offset =
    position

/-- The place is in an earlier line, or further left in the same line. -/
def Precedes (here there : Place) : Prop :=
  here.line < there.line ∨ here.line = there.line ∧ here.offset < there.offset

variable {here there : Place} {t : Text} {p q : Nat}

theorem precedes_or_eq (here there : Place) :
    here.Precedes there ∨ here = there ∨ there.Precedes here := by
  obtain ⟨line, offset⟩ := here
  obtain ⟨line', offset'⟩ := there
  simp only [Precedes, Place.mk.injEq]
  omega

/-- Within a text the bytes in front of a line are those of the lines before it. -/
theorem LeadsTo.eq_extent (h : here.LeadsTo t p) :
    p = Text.extent (t.lines.take (here.line - 1)) + here.offset := by
  have hlength : (t.lines.take (here.line - 1)).length = here.line - 1 := by
    have := h.line_le
    rw [List.length_take]
    omega
  rw [← h.position_eq, Text.extent, hlength]

theorem leadsTo_of_lines {ls ms : List Text} {x : Text} {b : Nat} (h : t.lines = ls ++ x :: ms)
    (hb : b ≤ x.size) : LeadsTo ⟨ls.length + 1, b⟩ t (Text.extent ls + b) where
  line_pos := Nat.le_add_left 1 _
  line_le := by simp [h]
  offset_le := by rwa [Text.line_eq h]
  position_eq := by simp [h, Text.extent]

/-- An earlier place leads to an earlier position: its line has ended before the other place. -/
theorem LeadsTo.lt_of_precedes (h : here.LeadsTo t p) (h' : there.LeadsTo t q)
    (hp : here.Precedes there) : p < q := by
  rw [h.eq_extent, h'.eq_extent]
  rcases hp with hline | ⟨hline, hoffset⟩
  · obtain ⟨n, hn⟩ : ∃ n, here.line = n + 1 := ⟨here.line - 1, by have := h.line_pos; omega⟩
    have hlength : n < t.lines.length := by
      have := h.line_le
      omega
    have hoffset := h.offset_le
    -- the line of the first place ends in front of that of the second
    have hbehind := Text.extent_take_le t.lines (show n + 1 ≤ there.line - 1 by omega)
    rw [Text.extent_take_succ hlength] at hbehind
    rw [hn] at hoffset ⊢
    rw [Nat.add_sub_cancel]
    omega
  · rw [hline]
    omega

theorem LeadsTo.eq (h : here.LeadsTo t p) (h' : there.LeadsTo t p) : here = there := by
  rcases here.precedes_or_eq there with hp | heq | hp
  · exact absurd (h.lt_of_precedes h' hp) (Nat.lt_irrefl p)
  · exact heq
  · exact absurd (h'.lt_of_precedes h hp) (Nat.lt_irrefl p)

theorem LeadsTo.precedes_of_lt (h : here.LeadsTo t p) (h' : there.LeadsTo t q) (hpq : p < q) :
    here.Precedes there := by
  rcases here.precedes_or_eq there with hp | rfl | hp
  · exact hp
  · exact absurd (h.position_eq.symm.trans h'.position_eq) (Nat.ne_of_lt hpq)
  · exact absurd (h'.lt_of_precedes h hp) (Nat.lt_asymm hpq)

end Place

/-- The place of a boundary leads to it. -/
theorem Location.leadsTo_place {t : Text} {p : Nat} (h : t.IsBoundary p) :
    (Location.place ⟨t, p⟩).LeadsTo t p := by
  obtain ⟨ls, s, m, ms, hlines, hplace, hboundary⟩ := exists_lines ⟨t, p⟩
  obtain ⟨hposition, -⟩ := hboundary h
  have hoffset : s.size ≤ Text.size (s ++ m) := by
    rw [Text.size_append]
    exact Nat.le_add_right _ _
  have hleads := Place.leadsTo_of_lines hlines hoffset
  rw [← hplace, ← hposition] at hleads
  exact hleads

/-- The place of a boundary and the boundary determine each other, in the same order. Any other position
has the place of the end. -/
theorem place_exact (t : Text) :
    (∀ p, t.IsBoundary p → ∀ here : Place, here.LeadsTo t p ↔ here = Location.place ⟨t, p⟩) ∧
    (∀ p q, t.IsBoundary p → t.IsBoundary q →
      (p < q ↔ (Location.place ⟨t, p⟩).Precedes (Location.place ⟨t, q⟩)) ∧
      (Location.place ⟨t, p⟩ = Location.place ⟨t, q⟩ → p = q)) ∧
    (∀ p, ¬ t.IsBoundary p → Location.place ⟨t, p⟩ = Location.place ⟨t, t.size⟩) ∧
    ∀ p, (Location.preceding ⟨t, p⟩).lastLineStart ≤ (Location.preceding ⟨t, p⟩).size := by
  refine ⟨fun p hp here => ⟨fun h => h.eq (Location.leadsTo_place hp), ?_⟩,
    fun p q hp hq => ⟨⟨?_, ?_⟩, fun h => ?_⟩, fun p hp => ?_, fun p => ?_⟩
  · rintro rfl
    exact Location.leadsTo_place hp
  · exact (Location.leadsTo_place hp).precedes_of_lt (Location.leadsTo_place hq)
  · exact (Location.leadsTo_place hp).lt_of_precedes (Location.leadsTo_place hq)
  · have hleads := Location.leadsTo_place hp
    rw [h] at hleads
    exact hleads.position_eq.symm.trans (Location.leadsTo_place hq).position_eq
  · have hend : Location.preceding ⟨t, t.size⟩ = t :=
      Location.preceding_of_split (s := t) (r := []) (List.append_nil t).symm rfl
    have hother : Location.preceding ⟨t, p⟩ = t := Location.preceding_of_not_boundary hp
    rw [Location.place, Location.place, hend, hother]
  · obtain ⟨ls, l, h⟩ := Text.exists_endsIn (Location.preceding ⟨t, p⟩)
    rw [h.start, h.size]
    exact Nat.le_add_right _ _

/-- Behind the first line feed, in front of the second and behind a letter of two bytes; the position
inside that letter has the place of the end. -/
theorem place_exact_accents :
    Text.IsBoundary "a\n\né".toList 2 ∧ Text.IsBoundary "a\n\né".toList 5 ∧
    Place.LeadsTo ⟨2, 0⟩ "a\n\né".toList 2 ∧
    Place.Precedes ⟨2, 0⟩ (Location.place ⟨"a\n\né".toList, 5⟩) ∧
    ¬ Text.IsBoundary "a\n\né".toList 4 ∧
    Location.place ⟨"a\n\né".toList, 4⟩ = ⟨3, 2⟩ := by
  have hline : Text.IsBoundary "a\n\né".toList 2 := by decide
  have hend : Text.IsBoundary "a\n\né".toList 5 := by decide
  have hinside : ¬ Text.IsBoundary "a\n\né".toList 4 := by decide
  obtain ⟨hleads, hordered, hother, -⟩ := place_exact "a\n\né".toList
  exact ⟨hline, hend, (hleads 2 hline _).2 rfl, (hordered 2 5 hline hend).1.1 (by decide), hinside,
    (hother 4 hinside).trans rfl⟩

end Backtrack
