/-
No run ever leaves its text or stops inside a character. Main statement: from a cursor at a
boundary, every cursor that is handed to a parser or back from one stands at a boundary of the same
text, so that what remains there can be cut off, and being at the end is having nothing left
(`record_standsIn`). It does not matter how the run ends, or whether it ends.
-/
import Backtrack.Proofs.Invariant

namespace Backtrack

/-- The cursor reads a given text and stands between two characters of it. -/
structure Cursor.StandsIn (t : Text) (c : Cursor) : Prop where
  source : c.source = t
  boundary : t.IsBoundary c.position
  le_size : c.position ≤ t.size
  /-- The text can be cut at the cursor. -/
  remaining : t.after? c.position = some c.remaining
  atEnd_iff : c.atEnd = true ↔ c.remaining = []

theorem Cursor.IsValid.standsIn {c : Cursor} (h : c.IsValid) : c.StandsIn c.source := by
  obtain ⟨s, hs, hp⟩ := h.exists_split
  exact ⟨rfl, h, h.le_size, Text.after?_eq_some_iff.2 ⟨s, hs, hp⟩, h.atEnd_iff⟩

/-- A run beside itself, at a boundary of a text throughout. -/
def Simulation.standing (t : Text) : Simulation :=
  .diagonal (fun c => c.source = t ∧ c.IsValid) (fun _ => true) (fun _ => true)
    (by rintro c s r ⟨hs, hv⟩ hr; exact ⟨hs, (hv.advance hr).1⟩)
    (by rintro c config - ⟨hs, hv⟩; exact ⟨hs, hv⟩)
    (by
      rintro c d p - ⟨hs, -⟩ h
      obtain ⟨hp, rfl⟩ := Cursor.startAt_eq_ok_iff.1 h
      exact ⟨hs, hp⟩)

/-- Every cursor of a run stands in the text that the run was given, and no step forward within
the run goes past the end of that text. No call is left out of this: a run that may call parsers from
such cursors only is the same run. -/
theorem record_standsIn (rules : Rules) (g : Grammar) {c : Cursor} (hc : c.IsValid) (n : Nat) :
    (∀ e ∈ g.record rules n c, ∀ d ∈ e.cursors, d.StandsIn c.source) ∧
      (∀ v d, (meaning rules n).parser g c = .ok (v, d) → d.StandsIn c.source) ∧
      (∀ g' d v bytes, .success g' d v (d.advance bytes) ∈ g.record rules n c →
        d.position + bytes ≤ c.source.size) ∧
      ∀ allow : Grammar → Cursor → Bool, (∀ g' d, d.StandsIn c.source → allow g' d = true) →
        (restricted allow rules n).parser g c = (meaning rules n).parser g c := by
  have hrules : rules.All (Simulation.standing c.source).node (Simulation.standing c.source).step :=
    Rules.all_of_forall (fun _ => rfl) (fun _ => rfl) rules
  have hg : g.all (Simulation.standing c.source).node (Simulation.standing c.source).step = true :=
    Grammar.all_of_forall (fun _ => rfl) (fun _ => rfl) g
  have hcursor : (Simulation.standing c.source).cursor c c := ⟨rfl, rfl, hc⟩
  have stands {d : Cursor} (h : (Simulation.standing c.source).cursor d d) :
      d.StandsIn c.source := h.2.1 ▸ h.2.2.standsIn
  have hrecord := Simulation.tracks_record hrules hg hcursor n
  constructor
  · intro e he d hd
    exact stands (hrecord e he d hd)
  constructor
  · intro v d h
    exact stands (((Simulation.run hrules n).parser g hg).next hcursor h)
  constructor
  · intro g' d v bytes he
    have hnext : d.advance bytes ∈ (Event.success g' d v (d.advance bytes)).cursors := by
      simp [Event.cursors]
    exact (stands (hrecord _ he _ hnext)).le_size
  · intro allow hallow
    -- every call is on record, and so it is made from such a cursor
    refine restricted_eq fun g' d he => hallow g' d ?_
    exact stands (hrecord _ he d (List.mem_singleton_self d))

/-- Back into the text, in front of an accented letter, and on to its end. -/
def rewind : Grammar := .and (.jump 1) (.many (.char (fun _ => true) "character"))

theorem record_standsIn_rewind :
    Cursor.IsValid ⟨"aéb".toList, 3, .default⟩ ∧
      (∀ e ∈ rewind.record (fun _ => none) 7 ⟨"aéb".toList, 3, .default⟩,
        ∀ d ∈ e.cursors, d.StandsIn "aéb".toList) ∧
      ∃ v d, (meaning (fun _ => none) 7).parser rewind ⟨"aéb".toList, 3, .default⟩ = .ok (v, d) ∧
        d.position = 4 ∧ d.StandsIn "aéb".toList := by
  have hc : Cursor.IsValid ⟨"aéb".toList, 3, .default⟩ := by decide
  obtain ⟨hrecord, hend, -⟩ := record_standsIn (fun _ => none) rewind hc 7
  exact ⟨hc, hrecord, _, _, rfl, rfl, hend _ _ rfl⟩

end Backtrack
