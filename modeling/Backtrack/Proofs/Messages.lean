/-
The message of a failure. It quotes what remains of the text, and a limit keeps only so many characters
of it. Main statement: the message is worded in one way, and what it quotes is the remaining text as far
as the limit allows, counted in characters, with an ellipsis exactly if there is more of it; under a
larger limit a longer front is kept (`message_exact`).

The limit counts characters and the text is cut at a byte. It is the byte at which the first character
starts that is too many, so that no character is cut.
-/
import Backtrack.Failure
import Backtrack.Proofs.Places

namespace Backtrack

/-- Under a limit a text is shown so, and this is what is kept of it: all, or the characters in front of
the one that is too many, where the text can be cut. -/
inductive Text.Shows (t : Text) : Option Nat → (kept shown : Text) → Prop where
  | unlimited : Shows t none t t
  | whole {limit : Nat} : t.length ≤ limit → Shows t (some limit) t t
  | cut {limit position : Nat} {kept : Text} : limit < t.length → kept = t.take limit →
      kept.size = position → t.before? position = some kept →
      Shows t (some limit) kept (kept ++ "...".toList)

namespace Failure

theorem shows_snippet (f : Failure) : ∃ kept, f.remaining.Shows f.snippetLimit kept f.snippet := by
  cases hlimit : f.snippetLimit with
  | none =>
    have hsnippet : f.snippet = f.remaining := by simp only [snippet, hlimit]
    rw [hsnippet]
    exact ⟨_, .unlimited⟩
  | some limit =>
    cases hstart : f.remaining.charStart? limit with
    | none =>
      have hsnippet : f.snippet = f.remaining := by simp only [snippet, hlimit, hstart]
      rw [hsnippet]
      exact ⟨_, .whole (Text.charStart?_eq_none_iff.1 hstart)⟩
    | some position =>
      -- the text is cut where the character begins that is one too many
      obtain ⟨hmore, hposition⟩ := Text.charStart?_eq_some_iff.1 hstart
      have hcut := Text.before?_charStart? hstart
      have hsnippet : f.snippet = f.remaining.take limit ++ "...".toList := by
        simp only [snippet, hlimit, hstart, hcut, Option.getD_some]
        rfl
      rw [hsnippet]
      exact ⟨_, .cut hmore rfl hposition hcut⟩

end Failure

/-- A larger limit keeps as much at least. -/
theorem Text.Shows.prefix_of_le {t kept kept' shown shown' : Text} {n m : Nat} (hnm : n ≤ m)
    (h : t.Shows (some n) kept shown) (h' : t.Shows (some m) kept' shown') : kept <+: kept' := by
  cases h with
  | whole hn =>
    cases h' with
    | whole _ => exact List.prefix_refl _
    -- the smaller limit already allows the whole text
    | cut hm _ _ _ => omega
  | cut _ hkept _ _ =>
    subst hkept
    cases h' with
    | whole _ => exact List.take_prefix n t
    | cut _ hkept' _ _ =>
      subst hkept'
      exact List.take_prefix_take_left hnm

/-- A location in front of the end quotes what stands behind it, any other one nothing. -/
theorem Location.remaining_cut (t : Text) (p : Nat) :
    (t.IsBoundary p → ∃ s, t = s ++ remaining ⟨t, p⟩ ∧ s.size = p) ∧
    (¬ t.IsBoundary p → remaining ⟨t, p⟩ = []) := by
  constructor
  · intro hp
    obtain ⟨r, hsource, hcut⟩ := exists_cut ⟨t, p⟩
    obtain ⟨hsize, hr⟩ := hcut hp
    subst hr
    exact ⟨_, hsource, hsize⟩
  · intro hp
    have hnone : t.after? p = none := by
      rw [Text.isBoundary_iff_after?, Option.not_isSome_iff_eq_none] at hp
      exact hp
    rw [remaining, hnone, Option.getD_none]

/-- The message of a failure quotes what remains of the text, whole or cut in front of the first
character that the limit does not allow. -/
theorem message_exact (t : Text) (p : Nat) :
    (t.IsBoundary p → ∃ s, t = s ++ Location.remaining ⟨t, p⟩ ∧ s.size = p) ∧
    (¬ t.IsBoundary p → Location.remaining ⟨t, p⟩ = []) ∧
    (∀ expected kind limit, ∃ kept shown, (Location.remaining ⟨t, p⟩).Shows limit kept shown ∧
      Failure.message ⟨⟨t, p⟩, expected, kind, limit⟩ =
        "[Offset " ++ toString p ++ "]: Expected " ++ expected ++ "; Input: \""
          ++ String.ofList shown ++ "\"") ∧
    ∀ n m kept kept' shown shown', n ≤ m →
      (Location.remaining ⟨t, p⟩).Shows (some n) kept shown →
      (Location.remaining ⟨t, p⟩).Shows (some m) kept' shown' → kept <+: kept' := by
  obtain ⟨hboundary, hother⟩ := Location.remaining_cut t p
  refine ⟨hboundary, hother, fun expected kind limit => ?_, fun n m _ _ _ _ hnm h h' => ?_⟩
  · obtain ⟨kept, hshows⟩ := Failure.shows_snippet ⟨⟨t, p⟩, expected, kind, limit⟩
    exact ⟨kept, _, hshows, rfl⟩
  · exact h.prefix_of_le hnm h'

/-- Two of three characters behind the first one are five bytes; from inside the second one on there is
nothing to quote. -/
theorem message_exact_accents :
    Text.IsBoundary "aé€z".toList 1 ∧ (∃ s, "aé€z".toList = s ++ "é€z".toList ∧ Text.size s = 1) ∧
    Failure.message ⟨⟨"aé€z".toList, 1⟩, "digit", .atomic, some 2⟩ =
      "[Offset 1]: Expected digit; Input: \"é€...\"" ∧
    Text.Shows "é€z".toList (some 0) [] "...".toList ∧
    Text.Shows "é€z".toList (some 2) "é€".toList "é€...".toList ∧ [] <+: "é€".toList ∧
    ¬ Text.IsBoundary "aé€z".toList 2 ∧ Location.remaining ⟨"aé€z".toList, 2⟩ = [] := by
  have hboundary : Text.IsBoundary "aé€z".toList 1 := by decide
  have hinside : ¬ Text.IsBoundary "aé€z".toList 2 := by decide
  have hnone : Text.Shows "é€z".toList (some 0) [] "...".toList :=
    .cut (by decide) rfl rfl rfl
  have htwo : Text.Shows "é€z".toList (some 2) "é€".toList "é€...".toList :=
    .cut (by decide) rfl rfl rfl
  obtain ⟨hbehind, -, hmessage, hkept⟩ := message_exact "aé€z".toList 1
  obtain ⟨-, hnothing, -, -⟩ := message_exact "aé€z".toList 2
  obtain ⟨kept, shown, hshows, htext⟩ := hmessage "digit" .atomic (some 2)
  refine ⟨hboundary, hbehind hboundary, ?_, hnone, htwo, hkept 0 2 _ _ _ _ (by decide) hnone htwo,
    hinside, hnothing hinside⟩
  cases hshows with
  | whole hfew => exact absurd hfew (by decide)
  | cut _ hfront _ _ =>
    subst hfront
    exact htext.trans rfl

end Backtrack
