/-
Walking through a text, one character at a time. Main statement: so many steps from the beginning
pass so many characters, and at the end they stay there; a run may start exactly where such a walk
comes to, on the cursor that walked there, and anywhere else it is refused without its parser being
asked (`nextN_start_exact`).

A walk adds up the sizes of characters, while a position is allowed or refused by looking at the text
there, as far as bytes go by its first byte. The two meet in the fronts of the text
(`isBoundary_iff_take`, `isBoundary_iff_firstByte`).
-/
import Backtrack.Engine
import Backtrack.Proofs.Reading

namespace Backtrack

/-! ## Boundaries -/

namespace Text

variable {t : Text} {p : Nat}

/-- The boundaries of a text are the sizes of its fronts. -/
theorem isBoundary_iff_take : t.IsBoundary p ↔ ∃ k, size (t.take k) = p := by
  constructor
  · rintro ⟨s, r, rfl, rfl⟩
    exact ⟨s.length, by rw [List.take_left' rfl]⟩
  · rintro ⟨k, rfl⟩
    exact ⟨t.take k, t.drop k, (List.take_append_drop k t).symm, rfl⟩

theorem utf8ByteSize_ofList (t : Text) : (String.ofList t).utf8ByteSize = size t := by
  induction t with
  | nil => rfl
  | cons c t ih =>
    rw [← List.singleton_append, String.ofList_append, String.utf8ByteSize_append, ih,
      ← String.singleton_eq_ofList, String.utf8ByteSize_singleton]
    rfl

/-- In the bytes of a text the boundaries are where a character has its first byte, and the end. -/
theorem isBoundary_iff_firstByte : t.IsBoundary p ↔
    p = t.size ∨ ∃ h : p < t.utf8Encode.size, t.utf8Encode[p].IsUTF8FirstByte := by
  -- the valid positions of a string are the boundaries of its characters
  have hvalid : t.IsBoundary p ↔ String.Pos.Raw.IsValid (String.ofList t) ⟨p⟩ := by
    rw [isBoundary_iff_take, String.Pos.Raw.isValid_ofList]
    simp only [utf8ByteSize_ofList, eq_comm]
  have hend : (⟨p⟩ : String.Pos.Raw) = (String.ofList t).rawEndPos ↔ p = t.size := by
    rw [String.Pos.Raw.ext_iff, String.byteIdx_rawEndPos, utf8ByteSize_ofList]
  rw [hvalid, String.Pos.Raw.isValid_iff_isUTF8FirstByte, hend]
  exact Iff.rfl

end Text

/-! ## Steps -/

namespace Cursor

variable {c : Cursor} {t : Text}

theorem Before.take (h : c.Before t) (k : Nat) : (c.past (t.take k)).Before (t.drop k) := by
  have hsplit : c.Before (t.take k ++ t.drop k) := by rwa [List.take_append_drop]
  exact hsplit.past

/-- A step passes the first character of what remains, if there is one. -/
theorem Before.next (h : c.Before t) : c.next = c.past (t.take 1) := by
  unfold Cursor.next current
  rw [h.remaining]
  cases t with
  | nil => rfl
  | cons ch t => rfl

/-- So many steps pass the front of so many characters. -/
theorem Before.nextN (h : c.Before t) (k : Nat) : nextN k c = c.past (t.take k) := by
  induction k generalizing c t with
  | zero => rfl
  | succ k ih =>
    have hnext : c.next.Before (t.drop 1) := by
      rw [h.next]
      exact h.take 1
    show nextN k c.next = _
    rw [ih hnext, h.next, past_past, Nat.add_comm, List.take_add]

/-- The cursor has passed so many characters of a text, or all of them where there are fewer. -/
structure HasPassed (t : Text) (k : Nat) (c : Cursor) : Prop where
  source : c.source = t
  position : c.position = Text.size (t.take (min k t.length))
  current : c.current = t[k]?
  remaining : c.remaining = t.drop k
  atEnd_iff : c.atEnd = true ↔ t.length ≤ k

theorem hasPassed_nextN (t : Text) (k : Nat) : (nextN k (start t)).HasPassed t k := by
  have hstart : (start t).Before t := .beginning t .default
  have hbehind := hstart.take k
  rw [hstart.nextN]
  refine ⟨rfl, ?_, ?_, hbehind.remaining, ?_⟩
  · rw [← List.take_eq_take_min]
    exact Nat.zero_add _
  · unfold current
    rw [hbehind.remaining, List.head?_drop]
  · rw [hbehind.valid.atEnd_iff, hbehind.remaining, List.drop_eq_nil_iff]

/-- A walk comes to the boundaries, in the order of the characters. -/
theorem exists_nextN_iff {p : Nat} :
    (∃ k, (nextN k (start t)).position = p) ↔ t.IsBoundary p := by
  rw [Text.isBoundary_iff_take]
  simp only [(hasPassed_nextN t _).position, ← List.take_eq_take_min]

/-- A cursor that has walked is the one that is made at its position. -/
theorem nextN_start_eq (t : Text) (k : Nat) :
    nextN k (start t) = ⟨t, (nextN k (start t)).position, .default⟩ := by
  have hstart : (start t).Before t := .beginning t .default
  rw [hstart.nextN]
  rfl

end Cursor

open Cursor in
/-- From the beginning of a text so many steps pass so many characters. Where such a walk comes to, a
run may start, on the cursor that walked there; these are the places at which a character has its
first byte, and the end. A run from anywhere else is refused, and its parser, which might not return,
is not asked. -/
theorem nextN_start_exact (t : Text) :
    (∀ k, (nextN k (start t)).HasPassed t k) ∧
    (∀ p c, startAt t p = .ok c ↔
      ∃ k, (nextN k (start t)).position = p ∧ c = nextN k (start t)) ∧
    (∀ p, (∃ k, (nextN k (start t)).position = p) ↔
      p = t.size ∨ ∃ h : p < t.utf8Encode.size, t.utf8Encode[p].IsUTF8FirstByte) ∧
    ∀ p, (∀ k, (nextN k (start t)).position ≠ p) →
      startAt t p = .error (.invalidStart p t.size) ∧
      ∀ (α : Type) (e : Engine α), e.parseAt t p = .error (.invalidStart p t.size) := by
  refine ⟨hasPassed_nextN t, fun p c => ?_, fun p => ?_, fun p hp => ?_⟩
  · rw [startAt_eq_ok_iff]
    constructor
    · rintro ⟨hp, rfl⟩
      obtain ⟨k, rfl⟩ := exists_nextN_iff.2 hp
      exact ⟨k, rfl, (nextN_start_eq t k).symm⟩
    · rintro ⟨k, rfl, rfl⟩
      exact ⟨exists_nextN_iff.1 ⟨k, rfl⟩, nextN_start_eq t k⟩
  · rw [exists_nextN_iff, Text.isBoundary_iff_firstByte]
  · have hno : ¬ t.IsBoundary p := fun h =>
      have ⟨k, hk⟩ := exists_nextN_iff.2 h
      hp k hk
    have hstart : startAt t p = .error (.invalidStart p t.size) := if_neg hno
    refine ⟨hstart, fun α e => ?_⟩
    rw [Engine.parseAt, hstart]
    rfl

/-- Characters of two, three and four bytes. Two steps come behind the second one; inside the third one
no run starts, not even of a parser that never returns. -/
theorem nextN_start_exact_accents :
    (Cursor.nextN 2 (.start "é€𝄞".toList)).HasPassed "é€𝄞".toList 2 ∧
    Cursor.startAt "é€𝄞".toList 5 = .ok (Cursor.nextN 2 (.start "é€𝄞".toList)) ∧
    (∀ k, (Cursor.nextN k (.start "é€𝄞".toList)).position ≠ 7) ∧
    (Engine.ofParser fun _ => (.unfinished : Outcome (Unit × Cursor))).parseAt "é€𝄞".toList 7 =
      .error (.invalidStart 7 9) := by
  obtain ⟨hpassed, hstart, -, hrefused⟩ := nextN_start_exact "é€𝄞".toList
  have hinside : ∀ k, (Cursor.nextN k (.start "é€𝄞".toList)).position ≠ 7 := by
    intro k hk
    have hok := (hstart 7 _).2 ⟨k, hk, rfl⟩
    cases hok
  exact ⟨hpassed 2, (hstart 5 _).2 ⟨2, rfl, rfl⟩, hinside, (hrefused 7 hinside).2 Unit _⟩

end Backtrack
