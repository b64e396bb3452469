/-
Texts and the places in them. A text is the list of its characters, but every size and every
position counts bytes of its UTF-8 form, so some positions fall inside a character. Main
statements: cutting a text at a position succeeds exactly at a character boundary
(`after?_eq_some_iff`, `before?_eq_some_iff`), and the two halves make up the text; the character
with a number starts behind that many others (`getElem?_charIndices`).
-/
namespace Backtrack

/-- A text, as the list of its characters. -/
abbrev Text := List Char

namespace Text

/-! ## Size -/

/-- The number of bytes of a text in UTF-8. -/
def size : Text → Nat
  | [] => 0
  | c :: t => c.utf8Size + size t

@[simp] theorem size_nil : size [] = 0 := rfl

@[simp] theorem size_cons (c : Char) (t : Text) : size (c :: t) = c.utf8Size + size t := rfl

@[simp] theorem size_append (s t : Text) : size (s ++ t) = size s + size t := by
  induction s with
  | nil => simp
  | cons c s ih => simp [ih, Nat.add_assoc]

theorem size_reverse (t : Text) : size t.reverse = size t := by
  induction t with
  | nil => rfl
  | cons c t ih =>
    rw [List.reverse_cons, size_append, size_cons, size_cons, size_nil, ih]
    omega

theorem size_eq_zero_iff {t : Text} : size t = 0 ↔ t = [] := by
  cases t with
  | nil => simp
  | cons c t => have := c.utf8Size_pos; simp; omega

/-! ## Cutting at a byte position -/

/-- The text from a byte position on, unless the position lies past the end or inside a character. -/
def after? : Text → Nat → Option Text
  | t, 0 => some t
  | [], _ + 1 => none
  | c :: t, p + 1 => if c.utf8Size ≤ p + 1 then after? t (p + 1 - c.utf8Size) else none

/-- The text up to a byte position, unless the position lies past the end or inside a character. -/
def before? : Text → Nat → Option Text
  | _, 0 => some []
  | [], _ + 1 => none
  | c :: t, p + 1 =>
    if c.utf8Size ≤ p + 1 then (before? t (p + 1 - c.utf8Size)).map (c :: ·) else none

/-- A position between two characters of a text, before the first one or after the last one. -/
def IsBoundary (t : Text) (p : Nat) : Prop :=
  ∃ s r : Text, t = s ++ r ∧ size s = p

@[simp] theorem after?_zero (t : Text) : after? t 0 = some t := by cases t <;> rfl

@[simp] theorem before?_zero (t : Text) : before? t 0 = some [] := by cases t <;> rfl

theorem after?_cons_add (c : Char) (t : Text) (p : Nat) :
    after? (c :: t) (c.utf8Size + p) = after? t p := by
  obtain ⟨n, hn⟩ : ∃ n, c.utf8Size = n + 1 := ⟨c.utf8Size - 1, by have := c.utf8Size_pos; omega⟩
  -- no character is empty, so the position is a successor
  rw [show c.utf8Size + p = (n + p) + 1 by omega, after?, if_pos (by omega)]
  congr 1; omega

theorem before?_cons_add (c : Char) (t : Text) (p : Nat) :
    before? (c :: t) (c.utf8Size + p) = (before? t p).map (c :: ·) := by
  obtain ⟨n, hn⟩ : ∃ n, c.utf8Size = n + 1 := ⟨c.utf8Size - 1, by have := c.utf8Size_pos; omega⟩
  rw [show c.utf8Size + p = (n + p) + 1 by omega, before?, if_pos (by omega)]
  congr 2; omega

@[simp] theorem after?_append_size (s r : Text) : after? (s ++ r) (size s) = some r := by
  induction s with
  | nil => simp
  | cons c s ih => rw [List.cons_append, size_cons, after?_cons_add, ih]

@[simp] theorem before?_append_size (s r : Text) : before? (s ++ r) (size s) = some s := by
  induction s with
  | nil => simp
  | cons c s ih => rw [List.cons_append, size_cons, before?_cons_add, ih]; rfl

/-- Cutting behind more text is cutting as far behind that text. -/
theorem after?_append_add (s t : Text) (p : Nat) : after? (s ++ t) (size s + p) = after? t p := by
  induction s with
  | nil => simp
  | cons c s ih => rw [List.cons_append, size_cons, Nat.add_assoc, after?_cons_add, ih]

theorem after?_eq_some_iff {t r : Text} {p : Nat} :
    after? t p = some r ↔ ∃ s, t = s ++ r ∧ size s = p := by
  constructor
  · fun_induction after? t p with
    | case1 t => rintro ⟨rfl⟩; exact ⟨[], by simp⟩
    | case2 => simp
    | case3 c t p hc ih =>
      -- the position lies behind the first character, so it is the rest that is cut
      intro h
      obtain ⟨s, rfl, hs⟩ := ih h
      exact ⟨c :: s, by simp, by simp [hs]; omega⟩
    | case4 => simp
  · rintro ⟨s, rfl, rfl⟩; simp

/-- Behind the front of what is left there is the rest of it. -/
theorem after?_add_size {t s r : Text} {p : Nat} (h : after? t p = some (s ++ r)) :
    after? t (p + size s) = some r := by
  obtain ⟨u, rfl, rfl⟩ := after?_eq_some_iff.1 h
  rw [← List.append_assoc, ← size_append, after?_append_size]

theorem before?_eq_some_iff {t s : Text} {p : Nat} :
    before? t p = some s ↔ ∃ r, t = s ++ r ∧ size s = p := by
  constructor
  · fun_induction before? t p generalizing s with
    | case1 t => rintro ⟨rfl⟩; exact ⟨t, by simp⟩
    | case2 => simp
    | case3 c t p hc ih =>
      intro h
      obtain ⟨s', hs', rfl⟩ := Option.map_eq_some_iff.1 h
      obtain ⟨r, rfl, hr⟩ := ih hs'
      exact ⟨r, by simp, by simp [hr]; omega⟩
    | case4 => simp
  · rintro ⟨r, rfl, rfl⟩; simp

theorem isBoundary_iff_after? {t : Text} {p : Nat} : IsBoundary t p ↔ (after? t p).isSome := by
  constructor
  · rintro ⟨s, r, rfl, rfl⟩; simp
  · intro h
    obtain ⟨r, hr⟩ := Option.isSome_iff_exists.1 h
    obtain ⟨s, rfl, hs⟩ := after?_eq_some_iff.1 hr
    exact ⟨s, r, rfl, hs⟩

instance (t : Text) (p : Nat) : Decidable (IsBoundary t p) :=
  decidable_of_iff _ isBoundary_iff_after?.symm

theorem IsBoundary.le_size {t : Text} {p : Nat} (h : IsBoundary t p) : p ≤ size t := by
  obtain ⟨s, r, rfl, rfl⟩ := h
  simp

/-! ## The characters of a text -/

/-- The characters of a text that starts at a byte position, each with the position where it starts
itself. -/
def charIndicesFrom : Nat → Text → List (Nat × Char)
  | _, [] => []
  | p, c :: t => (p, c) :: charIndicesFrom (p + c.utf8Size) t

/-- The characters of a text, each with the byte position where it starts. -/
def charIndices (t : Text) : List (Nat × Char) := charIndicesFrom 0 t

theorem charIndicesFrom_append (p : Nat) (s t : Text) :
    charIndicesFrom p (s ++ t) = charIndicesFrom p s ++ charIndicesFrom (p + size s) t := by
  induction s generalizing p with
  | nil => rfl
  | cons c s ih => rw [List.cons_append, charIndicesFrom, ih, size_cons, Nat.add_assoc]; rfl

/-- Behind a text the characters of another one start where the first one ends. -/
theorem charIndices_append (s t : Text) :
    charIndices (s ++ t) = charIndices s ++ charIndicesFrom (size s) t := by
  rw [charIndices, charIndicesFrom_append, Nat.zero_add]
  rfl

theorem getElem?_charIndicesFrom (p : Nat) (t : Text) (n : Nat) :
    (charIndicesFrom p t)[n]? = t[n]?.map fun c => (p + size (t.take n), c) := by
  induction t generalizing p n with
  | nil => rfl
  | cons c t ih =>
    cases n with
    | zero => rfl
    | succ n =>
      simp only [charIndicesFrom, List.getElem?_cons_succ, ih, List.take_succ_cons, size_cons,
        Nat.add_assoc]

/-- A character starts behind those in front of it. -/
theorem getElem?_charIndices (t : Text) (n : Nat) :
    t.charIndices[n]? = t[n]?.map fun c => (size (t.take n), c) := by
  simp only [charIndices, getElem?_charIndicesFrom, Nat.zero_add]

theorem snd_mem_of_mem_charIndices {t : Text} {x : Nat × Char} (h : x ∈ t.charIndices) : x.2 ∈ t := by
  -- what stands at an index there stands at the same index of the text
  obtain ⟨n, hn⟩ := List.mem_iff_getElem?.1 h
  rw [getElem?_charIndices, Option.map_eq_some_iff] at hn
  obtain ⟨c, hc, rfl⟩ := hn
  exact List.mem_of_getElem? hc

/-- The byte position at which the character with this number starts, counted from zero, unless the
text has no more characters than that. -/
def charStart? (t : Text) (n : Nat) : Option Nat := t.charIndices[n]?.map Prod.fst

theorem charStart?_eq_some_iff {t : Text} {n p : Nat} :
    charStart? t n = some p ↔ n < t.length ∧ size (t.take n) = p := by
  rw [charStart?, getElem?_charIndices, Option.map_map, Option.map_eq_some_iff]
  constructor
  · rintro ⟨c, hc, rfl⟩
    exact ⟨(List.getElem?_eq_some_iff.1 hc).1, rfl⟩
  · rintro ⟨hn, rfl⟩
    exact ⟨t[n], List.getElem?_eq_getElem hn, rfl⟩

theorem charStart?_eq_none_iff {t : Text} {n : Nat} : charStart? t n = none ↔ t.length ≤ n := by
  rw [charStart?, getElem?_charIndices, Option.map_map, Option.map_eq_none_iff,
    List.getElem?_eq_none_iff]

/-- Where a character starts a text can be cut, and what comes before it are the characters before. -/
theorem before?_charStart? {t : Text} {n p : Nat} (h : charStart? t n = some p) :
    before? t p = some (t.take n) := by
  obtain ⟨-, rfl⟩ := charStart?_eq_some_iff.1 h
  exact before?_eq_some_iff.2 ⟨t.drop n, (List.take_append_drop n t).symm, rfl⟩

end Text

end Backtrack
