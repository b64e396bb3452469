/-
Repetitions of a parser that does not go back. It need not read anything, and it may do anything with
the settings: where it moves, it passes a character at least, and where it does not, the repetition
is over. Main statement: within one call more than there are characters left, a repetition of such a
parser returns, it makes no further call however large its budget is, and it collects at most one
value for each of these characters (`repetition_bounded`). Each call is made further on in the text
than the one before.
-/
import Backtrack.Proofs.Iterations
import Backtrack.Proofs.Spelling

namespace Backtrack

/-! ## Moving on in a text -/

/-- Of two boundaries of a text the one behind is reached by passing the text between them. -/
theorem Cursor.Reads.exists_of_le {c d : Cursor} (hc : c.IsValid) (hd : d.IsValid)
    (hs : d.source = c.source) (hle : c.position ≤ d.position) : ∃ t, c.Reads t d := by
  obtain ⟨s, hsource, hp⟩ := hc.exists_split
  obtain ⟨u, husource, hup⟩ := hd.exists_split
  rw [hs, hsource] at husource
  -- both texts are fronts of the source, so one is a front of the other
  rcases List.append_eq_append_iff.1 husource with ⟨t, rfl, hr⟩ | ⟨t, rfl, hr⟩
  · refine ⟨t, hs, ?_, hr⟩
    rw [← hup, ← hp, Text.size_append]
  · -- the text between them is empty
    rw [Text.size_append, hup] at hp
    obtain rfl : t = [] := Text.size_eq_zero_iff.1 (by omega)
    refine ⟨[], hs, ?_, hr.symm⟩
    rw [Text.size_nil] at hp ⊢
    omega

namespace Parser

variable {α : Type}

/-- The parser returns wherever it may start, and where it succeeds it is still in the text, at a
boundary that does not lie before its start. -/
structure Onward (p : Parser α) : Prop where
  returned : ∀ {c}, c.IsValid → p c ≠ .unfinished
  source : ∀ {c a d}, c.IsValid → p c = .ok (a, d) → d.source = c.source
  valid : ∀ {c a d}, c.IsValid → p c = .ok (a, d) → d.IsValid
  position_le : ∀ {c a d}, c.IsValid → p c = .ok (a, d) → c.position ≤ d.position

section

variable {p : Parser α} {c d : Cursor} {a : α} {as : List α}

theorem Onward.reads (hp : Onward p) (hc : c.IsValid) (h : p c = .ok (a, d)) : ∃ t, c.Reads t d :=
  Cursor.Reads.exists_of_le hc (hp.valid hc h) (hp.source hc h) (hp.position_le hc h)

/-- A parser whose values spell what it reads does not go back. -/
theorem Onward.of_spells {spell : α → Text} (h : Spells spell p)
    (hr : ∀ c, c.IsValid → p c ≠ .unfinished) : Onward p where
  returned hc := hr _ hc
  source hc hp := (h _ _ _ hc hp).source
  valid hc hp := (h _ _ _ hc hp).isValid hc
  position_le hc hp := by
    rw [(h _ _ _ hc hp).position]
    exact Nat.le_add_right _ _

/-- A chain passes a character with each iteration at least. -/
theorem Chain.reads (h : Chain p c as d) (hp : Onward p) (hc : c.IsValid) :
    ∃ t, c.Reads t d ∧ as.length ≤ t.length := by
  induction h with
  | nil c => exact ⟨[], .refl c, Nat.le_refl 0⟩
  | @cons c d e a as hpc hd _ ih =>
    obtain ⟨t, ht⟩ := hp.reads hc hpc
    obtain ⟨u, hu, hlength⟩ := ih (ht.isValid hc)
    -- an iteration that has passed nothing would not have moved
    have hpos : 0 < t.length := by
      apply List.length_pos_iff.2
      rintro rfl
      exact hd ht.position
    refine ⟨t ++ u, ht.trans hu, ?_⟩
    rw [List.length_cons, List.length_append]
    omega

theorem Chain.length_le (h : Chain p c as d) (hp : Onward p) (hc : c.IsValid) :
    as.length ≤ c.remaining.length := by
  obtain ⟨t, ht, hlength⟩ := h.reads hp hc
  rw [ht.remaining, List.length_append]
  omega

/-- From a valid cursor a chain leads to the budget's end or to the last iteration. -/
theorem Onward.exists_chain (hp : Onward p) (hc : c.IsValid) (n : Nat) : ∃ as d m,
    n = as.length + m ∧ Chain p c as d ∧ as.length ≤ c.remaining.length ∧
      (m = 0 ∨ ∃ x, Ends p d x) := by
  obtain ⟨as, d, m, hn, hchain, hm⟩ := Parser.exists_chain p n c
  refine ⟨as, d, m, hn, hchain, hchain.length_le hp hc, ?_⟩
  rcases hm with hm | hd | hends
  · exact .inl hm
  · obtain ⟨t, ht, -⟩ := hchain.reads hp hc
    exact absurd hd (hp.returned (ht.isValid hc))
  · exact .inr hends

theorem Onward.iterate_returned (hp : Onward p) (hc : c.IsValid) {n : Nat}
    (hn : c.remaining.length < n) : iterate n p c ≠ .unfinished := by
  obtain ⟨as, d, m, rfl, hchain, hlength, rfl | ⟨x, hends⟩⟩ := hp.exists_chain hc n
  · omega
  · obtain ⟨k, rfl⟩ : ∃ k, m = k + 1 := ⟨m - 1, by omega⟩
    rw [iterate_of_chain hchain, hends.iterate]
    intro hx
    cases x with
    | unfinished => exact hends.returned rfl
    | _ => cases hx

theorem Onward.length_calls_le (hp : Onward p) (hc : c.IsValid) (n : Nat) :
    (calls n p c).length ≤ c.remaining.length + 1 := by
  obtain ⟨as, d, m, rfl, hchain, hlength, hm⟩ := hp.exists_chain hc n
  rw [length_calls_of_chain hchain]
  cases m with
  | zero =>
    rw [calls, List.length_nil]
    omega
  | succ m =>
    rcases hm with hm | ⟨x, hends⟩
    · omega
    · rw [hends.calls, List.length_singleton]
      omega

theorem Onward.position_le_of_mem_calls (hp : Onward p) {n : Nat} {e : Cursor} (hc : c.IsValid)
    (he : e ∈ calls n p c) : c.position ≤ e.position := by
  induction n generalizing c with
  | zero => cases he
  | succ n ih =>
    rcases iteration_cases p c with hpc | ⟨x, hends⟩ | ⟨a, d, hpc, hd⟩
    · exact absurd hpc (hp.returned hc)
    · rw [hends.calls, List.mem_singleton] at he
      exact Nat.le_of_eq (congrArg Cursor.position he.symm)
    · rw [calls_succ_moved n hpc hd] at he
      rcases List.mem_cons.1 he with rfl | he
      · exact Nat.le_refl _
      · exact Nat.le_trans (hp.position_le hc hpc) (ih (hp.valid hc hpc) he)

/-- Each call is made further on than the one before, so none is made twice. -/
theorem Onward.pairwise_calls (hp : Onward p) (hc : c.IsValid) (n : Nat) :
    (calls n p c).Pairwise fun d e => d.position < e.position := by
  induction n generalizing c with
  | zero => exact .nil
  | succ n ih =>
    rcases iteration_cases p c with hpc | ⟨x, hends⟩ | ⟨a, d, hpc, hd⟩
    · exact absurd hpc (hp.returned hc)
    · rw [hends.calls]
      exact List.pairwise_singleton _ _
    · have hvalid := hp.valid hc hpc
      have hle := hp.position_le hc hpc
      rw [calls_succ_moved n hpc hd]
      refine .cons (fun e he => ?_) (ih hvalid)
      have hrest := hp.position_le_of_mem_calls hvalid he
      omega

theorem Onward.length_values_le (hp : Onward p) (hc : c.IsValid) {n : Nat} {r : Repetition α}
    (h : iterate n p c = .ok r) : r.values.length ≤ c.remaining.length := by
  obtain ⟨as, d, m, rfl, hchain, hlength, hm⟩ := hp.exists_chain hc n
  rw [iterate_of_chain hchain] at h
  cases m with
  | zero => cases h
  | succ m =>
    rcases hm with hm | ⟨x, hends⟩
    · omega
    · rw [hends.iterate] at h
      -- the last iteration adds no value
      cases hends <;> cases h <;> rw [List.append_nil] <;> exact hlength

end

theorem many_eq_unfinished_iff {p : Parser α} {c : Cursor} {n : Nat} :
    many n p c = .unfinished ↔ iterate n p c = .unfinished := by
  rw [many]
  rcases iterate n p c with _ | _ | _ <;> simp

theorem many1_eq_unfinished_iff {p : Parser α} {c : Cursor} {n : Nat} :
    many1 n p c = .unfinished ↔ iterate n p c = .unfinished := by
  rw [many1]
  rcases iterate n p c with ⟨_ | _, _, _⟩ | _ | _ <;> simp

/-- A repetition of a parser that does not go back ends, whatever the policy for idle iterations. The
calls that are counted are those without which it would not return, each is made once, and there are
as many of them as the repetition takes turns. -/
theorem repetition_bounded {p : Parser α} {c : Cursor} (hp : Onward p) (hc : c.IsValid) :
    (∃ x y, x ≠ .unfinished ∧ y ≠ .unfinished ∧
      ∀ n, c.remaining.length < n → many n p c = x ∧ many1 n p c = y) ∧
    (∀ n, (calls n p c).length ≤ c.remaining.length + 1) ∧
    (∀ n, (calls n p c).Pairwise fun d e => d.position < e.position) ∧
    (∀ n, c.remaining.length < n →
      (∀ d, (d ∈ calls n p c ↔ many n (p.silencedAt d) c = .unfinished) ∧
        (d ∈ calls n p c ↔ many1 n (p.silencedAt d) c = .unfinished)) ∧
      ∀ k, (many k p c ≠ .unfinished ↔ (calls n p c).length ≤ k) ∧
        (many1 k p c ≠ .unfinished ↔ (calls n p c).length ≤ k)) ∧
    (∀ n as d, many n p c = .ok (as, d) → as.length ≤ c.remaining.length) ∧
    ∀ n as d, many1 n p c = .ok (as, d) → as.length ≤ c.remaining.length := by
  refine ⟨?_, hp.length_calls_le hc, hp.pairwise_calls hc, fun n hn => ?_, ?_, ?_⟩
  · have hreturned := hp.iterate_returned hc (Nat.lt_succ_self _)
    -- a budget that is enough once is enough for good
    have hsame : ∀ n, c.remaining.length < n →
        iterate n p c = iterate (c.remaining.length + 1) p c := fun n hn =>
      Outcome.eq_of_le (iterate_le_iterate (.refl p) hn c) hreturned
    refine ⟨_, _, mt many_eq_unfinished_iff.1 hreturned, mt many1_eq_unfinished_iff.1 hreturned,
      fun n hn => ⟨?_, ?_⟩⟩
    · rw [many, many, hsame n hn]
    · rw [many1, many1, hsame n hn]
  · have hreturned := hp.iterate_returned hc hn
    simp only [ne_eq, many_eq_unfinished_iff, many1_eq_unfinished_iff, and_self]
    exact ⟨fun d => mem_calls_iff d hreturned, fun k => iterate_returned_iff hreturned k⟩
  · intro n as d h
    obtain ⟨r, hr, h⟩ := Outcome.bind_eq_ok_iff.1 h
    cases h
    exact hp.length_values_le hc hr
  · intro n as d h
    obtain ⟨r, hr, h⟩ := Outcome.bind_eq_ok_iff.1 h
    split at h
    · cases h
    · cases h
      exact hp.length_values_le hc hr

/-- Reads any number of letters, and asks for no progress from then on. -/
def accents : Parser (Text × Unit) := (takeWhile (· == 'é')).and (configure ⟨.stop, none⟩)

theorem onward_accents : Onward accents :=
  .of_spells ((spells_takeWhile _).and (spells_configure _)) fun _ _ h => by cases h

/-- Four characters remain, of six bytes. The second iteration does not move, and it is the last. -/
theorem repetition_bounded_accents :
    Onward accents ∧ Cursor.IsValid ⟨"aéé b".toList, 1, ⟨.fail, none⟩⟩ ∧
    (∃ x, x ≠ .unfinished ∧
      ∀ n, 4 < n → many n accents ⟨"aéé b".toList, 1, ⟨.fail, none⟩⟩ = x) ∧
    (∀ n, (calls n accents ⟨"aéé b".toList, 1, ⟨.fail, none⟩⟩).length ≤ 5) ∧
    many 5 accents ⟨"aéé b".toList, 1, ⟨.fail, none⟩⟩ =
      .ok ([("éé".toList, ())], ⟨"aéé b".toList, 5, ⟨.stop, none⟩⟩) := by
  have hvalid : Cursor.IsValid ⟨"aéé b".toList, 1, ⟨.fail, none⟩⟩ := by decide
  obtain ⟨⟨x, _, hx, _, hsame⟩, hcalls, -⟩ := repetition_bounded onward_accents hvalid
  exact ⟨onward_accents, hvalid, ⟨x, hx, fun n hn => (hsame n hn).1⟩, hcalls, rfl⟩

end Parser

end Backtrack
