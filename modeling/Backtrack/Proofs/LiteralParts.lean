/-
Literals in parts. A text that is to be read may be cut anywhere and its two parts be read one after
the other. Main statement: the literal and the sequence succeed in the same places, which are those
where the text stands, and come to the same cursor; where it does not stand, the literal fails at its
start, however far the text agrees, while the sequence fails where the part stands that does not agree
(`literal_append_exact`).

Texts are compared by their characters. That is to compare their bytes, because no character is cut by
the end of another text (`Text.prefix_iff_utf8Encode`).
-/
import Backtrack.Proofs.LeftFactoring
import Backtrack.Proofs.Reading

namespace Backtrack

/-- A text begins with another one if its bytes begin with those of the other one. -/
theorem Text.prefix_iff_utf8Encode {s t : Text} :
    s <+: t ↔ ∃ rest : ByteArray, s.utf8Encode ++ rest = t.utf8Encode := by
  constructor
  · rintro ⟨r, rfl⟩
    exact ⟨r.utf8Encode, List.utf8Encode_append.symm⟩
  · rintro ⟨rest, h⟩
    exact List.isPrefix_of_utf8Encode_append_eq_utf8Encode rest h

namespace Parser

variable {α β : Type} {s t : String} {c : Cursor}

theorem Reads.and {p : Parser α} {q : Parser β} {a : α} {b : β} {u v rest : Text}
    (hp : p.Reads u a (v ++ rest)) (hq : q.Reads v b rest) :
    (p.and q).Reads (u ++ v) (a, b) rest := by
  intro c hc
  rw [List.append_assoc] at hc
  rw [and_of_ok (hp c hc), hq _ hc.past, Cursor.past_past]
  rfl

theorem literal_of_mismatch (h : ∀ r, c.remaining ≠ s.toList ++ r) :
    literal s c = .error (c.fail ("\"" ++ s ++ "\"")) := by
  have hno : ¬ s.toList.isPrefixOf c.remaining = true := by
    intro hprefix
    obtain ⟨r, hr⟩ := List.isPrefixOf_iff_prefix.1 hprefix
    exact h r hr.symm
  rw [literal, if_neg hno]

/-- A literal succeeds exactly where its text stands. -/
theorem exists_literal_iff (hc : c.IsValid) :
    (∃ x, literal s c = .ok x) ↔ ∃ r, c.remaining = s.toList ++ r := by
  constructor
  · rintro ⟨x, hx⟩
    by_contra hno
    rw [literal_of_mismatch (not_exists.1 hno)] at hx
    cases hx
  · rintro ⟨r, hr⟩
    exact ⟨_, reads_literal s r c ⟨hc, hr⟩⟩

/-- The part of a text that does not stand where it should is the one that a sequence reports. -/
theorem literal_and_of_mismatch (hc : c.IsValid) (h : ∀ r, c.remaining ≠ s.toList ++ t.toList ++ r) :
    (literal s).and (literal t) c = .error (c.fail ("\"" ++ s ++ "\"")) ∨
    (∃ r, c.remaining = s.toList ++ r) ∧
      (literal s).and (literal t) c = .error ((c.past s.toList).fail ("\"" ++ t ++ "\"")) := by
  by_cases hs : ∃ r, c.remaining = s.toList ++ r
  · obtain ⟨r, hr⟩ := hs
    have hbefore : c.Before (s.toList ++ r) := ⟨hc, hr⟩
    -- if the second text stood behind the first, both would stand where the cursor is
    have ht : ∀ r', (c.past s.toList).remaining ≠ t.toList ++ r' := by
      rintro r' hr'
      rw [hbefore.past.remaining] at hr'
      rw [hr', ← List.append_assoc] at hr
      exact h r' hr
    refine .inr ⟨⟨r, hr⟩, ?_⟩
    rw [and_of_ok (reads_literal s r c hbefore), literal_of_mismatch ht]
    rfl
  · exact .inl (and_of_error (literal_of_mismatch (not_exists.1 hs)) (literal t))

theorem reads_literal_append (s t : String) (rest : Text) :
    (literal (s ++ t)).Reads (s.toList ++ t.toList) (s.toList ++ t.toList) rest := by
  rw [← String.toList_append]
  exact reads_literal (s ++ t) rest

theorem reads_literal_and (s t : String) (rest : Text) :
    ((literal s).and (literal t)).Reads (s.toList ++ t.toList) (s.toList, t.toList) rest :=
  (reads_literal s _).and (reads_literal t rest)

/-- A sequence of two literals succeeds exactly where their texts stand one behind the other. -/
theorem exists_literal_and_iff (hc : c.IsValid) :
    (∃ x, (literal s).and (literal t) c = .ok x) ↔ ∃ r, c.remaining = s.toList ++ t.toList ++ r := by
  constructor
  · rintro ⟨x, hx⟩
    by_contra hno
    rcases literal_and_of_mismatch hc (not_exists.1 hno) with h | ⟨-, h⟩
    · rw [h] at hx
      cases hx
    · rw [h] at hx
      cases hx
  · rintro ⟨r, hr⟩
    exact ⟨_, reads_literal_and s t r c ⟨hc, hr⟩⟩

/-- A literal reads what its two parts read one after the other. It fails where it starts, and the
sequence fails in front of the part that does not agree. -/
theorem literal_append_exact (s t : String) {c : Cursor} (hc : c.IsValid) :
    ((∃ x, literal (s ++ t) c = .ok x) ↔ ∃ x, (literal s).and (literal t) c = .ok x) ∧
    ((∃ x, literal (s ++ t) c = .ok x) ↔ ∃ r, c.remaining = s.toList ++ t.toList ++ r) ∧
    ((∃ x, literal (s ++ t) c = .ok x) ↔
      ∃ rest : ByteArray, (s ++ t).toByteArray ++ rest = c.remaining.utf8Encode) ∧
    (∀ r, c.remaining = s.toList ++ t.toList ++ r → ∃ d : Cursor,
      d = ⟨c.source, c.position + (Text.size s.toList + Text.size t.toList), c.config⟩ ∧
      d.remaining = r ∧
      literal (s ++ t) c = .ok (s.toList ++ t.toList, d) ∧
      (literal s).and (literal t) c = .ok ((s.toList, t.toList), d)) ∧
    ((∀ r, c.remaining ≠ s.toList ++ t.toList ++ r) →
      literal (s ++ t) c = .error (.failure
        ⟨⟨c.source, c.position⟩, "\"" ++ (s ++ t) ++ "\"", .atomic, c.config.snippetLimit⟩) ∧
      ((literal s).and (literal t) c = .error (.failure
          ⟨⟨c.source, c.position⟩, "\"" ++ s ++ "\"", .atomic, c.config.snippetLimit⟩) ∨
        (∃ r, c.remaining = s.toList ++ r) ∧
          (literal s).and (literal t) c = .error (.failure
            ⟨⟨c.source, c.position + Text.size s.toList⟩, "\"" ++ t ++ "\"", .atomic,
              c.config.snippetLimit⟩))) := by
  have hwhole : (s ++ t).toList = s.toList ++ t.toList := String.toList_append
  have hexists := exists_literal_iff (s := s ++ t) hc
  -- one text begins with another exactly if its bytes do
  have hbytes : (∃ r, c.remaining = (s ++ t).toList ++ r) ↔
      ∃ rest : ByteArray, (s ++ t).toByteArray ++ rest = c.remaining.utf8Encode := by
    rw [← String.utf8Encode_toList, ← Text.prefix_iff_utf8Encode]
    exact exists_congr fun _ => eq_comm
  refine ⟨?_, ?_, hexists.trans hbytes, fun r hr => ?_, fun hno => ⟨?_, ?_⟩⟩
  · rw [hexists, exists_literal_and_iff hc, hwhole]
  · rw [hexists, hwhole]
  · have hbefore : c.Before (s.toList ++ t.toList ++ r) := ⟨hc, hr⟩
    refine ⟨c.past (s.toList ++ t.toList), ?_, hbefore.past.remaining,
      reads_literal_append s t r c hbefore, reads_literal_and s t r c hbefore⟩
    rw [← Text.size_append]
    rfl
  · rw [← hwhole] at hno
    exact literal_of_mismatch hno
  · exact literal_and_of_mismatch hc hno

/-- Letters of two bytes that share the first one. Where the second letter is another one, the literal
fails in front of both and the sequence between them. -/
theorem literal_append_exact_accents :
    Cursor.IsValid ⟨"xéè€!".toList, 1, ⟨.fail, some 2⟩⟩ ∧
    literal ("é" ++ "è€") ⟨"xéè€!".toList, 1, ⟨.fail, some 2⟩⟩ =
      .ok ("éè€".toList, ⟨"xéè€!".toList, 8, ⟨.fail, some 2⟩⟩) ∧
    Cursor.IsValid ⟨"xéé€!".toList, 1, ⟨.fail, some 2⟩⟩ ∧
    literal ("é" ++ "è€") ⟨"xéé€!".toList, 1, ⟨.fail, some 2⟩⟩ =
      .error (.failure ⟨⟨"xéé€!".toList, 1⟩, "\"éè€\"", .atomic, some 2⟩) ∧
    (literal "é").and (literal "è€") ⟨"xéé€!".toList, 1, ⟨.fail, some 2⟩⟩ =
      .error (.failure ⟨⟨"xéé€!".toList, 3⟩, "\"è€\"", .atomic, some 2⟩) := by
  have hvalid : Cursor.IsValid ⟨"xéè€!".toList, 1, ⟨.fail, some 2⟩⟩ := by decide
  have hother : Cursor.IsValid ⟨"xéé€!".toList, 1, ⟨.fail, some 2⟩⟩ := by decide
  obtain ⟨-, -, -, hread, -⟩ := literal_append_exact "é" "è€" hvalid
  obtain ⟨-, -, -, -, hfails⟩ := literal_append_exact "é" "è€" hother
  obtain ⟨d, rfl, -, hliteral, -⟩ := hread "!".toList rfl
  have hno : ∀ r, Cursor.remaining ⟨"xéé€!".toList, 1, ⟨.fail, some 2⟩⟩ ≠
      "é".toList ++ "è€".toList ++ r := by
    intro r hr
    cases hr
  obtain ⟨hwhole, hparts | ⟨-, hparts⟩⟩ := hfails hno
  · cases hparts
  · exact ⟨hvalid, hliteral, hother, hwhole, hparts⟩

end Parser

end Backtrack
