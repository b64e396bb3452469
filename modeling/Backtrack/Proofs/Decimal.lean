/-
What a numeral in front of a text is read as. The digits are taken one by one with every value on
the way within the bounds, and yet a numeral is refused only if the integer that it denotes is out
of bounds (`Numeral.value?_eq`): the values go down from zero, and never up again. So a numeral of
any length is read as exactly the integer that it denotes, or refused because that integer has more
than sixty-four bits (`Parser.number_exact`), and the decimal text of an integer is read as that
integer (`Parser.reads_toString`).
-/
import Backtrack.Proofs.LongestSpan

namespace Backtrack

/-! ## Values below zero -/

namespace Numeral

variable {b : Bounds}

/-- The integer that digits denote in base ten, with a sign before them or without. -/
def denoted (negative : Bool) (digits : Text) : Int :=
  if negative then -(Nat.ofDigitChars 10 digits 0) else Nat.ofDigitChars 10 digits 0

/-- One more digit is too much only if the value with it is. -/
theorem extendDown?_eq (hb : 0 ≤ b.greatest) (m : Nat) (c : Char) :
    extendDown? b (-m) c = b.admit? (-(10 * m + (c.toNat - '0'.toNat) : Nat)) := by
  have hdigit : digitValue c = (c.toNat - '0'.toNat : Nat) := rfl
  rw [show -((10 * m + (c.toNat - '0'.toNat) : Nat) : Int) = -(m : Int) * 10 - digitValue c by
    rw [hdigit]; omega]
  unfold extendDown?
  -- the result is below the product, so it is out of range where the product is
  by_cases htens : b.least ≤ -(m : Int) * 10
  · rw [Bounds.admit?_eq_some htens (by omega)]
    rfl
  · rw [Bounds.admit?_eq_none_of_lt (by omega), Bounds.admit?_eq_none_of_lt (by rw [hdigit]; omega)]
    rfl

theorem le_ofDigitChars (digits : Text) (m : Nat) : m ≤ Nat.ofDigitChars 10 digits m := by
  rw [Nat.ofDigitChars_eq_ofDigitChars_zero]
  exact Nat.le_add_right_of_le (Nat.le_mul_of_pos_left m (Nat.pow_pos (by decide)))

/-- Digits are too much only if the whole of them is: the values on the way are nearer to zero. -/
theorem foldlM_extendDown? (hb : 0 ≤ b.greatest) (digits : Text) {m : Nat}
    (hm : b.least ≤ -(m : Int)) :
    digits.foldlM (extendDown? b) (-(m : Int)) =
      b.admit? (-(Nat.ofDigitChars 10 digits m : Nat)) := by
  induction digits generalizing m with
  | nil =>
    rw [Nat.ofDigitChars_nil, Bounds.admit?_eq_some hm (by omega)]
    rfl
  | cons c digits ih =>
    rw [List.foldlM_cons, extendDown?_eq hb, Nat.ofDigitChars_cons]
    generalize 10 * m + (c.toNat - '0'.toNat) = next
    by_cases hnext : b.least ≤ -(next : Int)
    · rw [Bounds.admit?_eq_some hnext (by omega)]
      exact ih hnext
    · -- out of range already, and more digits lead further away
      have hle := le_ofDigitChars digits next
      rw [Bounds.admit?_eq_none_of_lt (by omega), Bounds.admit?_eq_none_of_lt (by omega)]
      rfl

/-- A numeral is refused exactly if the integer that it denotes is out of bounds. -/
theorem value?_eq (hb : 0 ≤ b.greatest) (hle : b.greatest ≤ -b.least) (negative : Bool)
    (digits : Text) : value? b negative digits = b.admit? (denoted negative digits) := by
  have hfold := foldlM_extendDown? hb digits (m := 0) (by omega)
  rw [Int.ofNat_zero, Int.neg_zero] at hfold
  unfold value? denoted
  rw [hfold]
  generalize Nat.ofDigitChars 10 digits 0 = n
  by_cases hn : b.least ≤ -(n : Int)
  · rw [Bounds.admit?_eq_some hn (by omega)]
    cases negative with
    | true => exact (Bounds.admit?_eq_some hn (by omega)).symm
    | false => exact congrArg b.admit? (Int.neg_neg _)
  · rw [Bounds.admit?_eq_none_of_lt (by omega)]
    cases negative with
    | true => exact (Bounds.admit?_eq_none_of_lt (Int.not_le.1 hn)).symm
    | false =>
      -- without a sign the value is too large rather than too small
      have hout : ¬ (b.least ≤ (n : Int) ∧ (n : Int) ≤ b.greatest) := by omega
      exact (if_neg hout).symm

end Numeral

/-! ## Numerals in a text -/

/-- The decimal text of an integer. -/
theorem toList_toString (n : Int) :
    (toString n).toList = (if n < 0 then ['-'] else []) ++ Nat.toDigits 10 n.natAbs := by
  rw [Int.toString_eq_repr, Int.repr_eq_if]
  by_cases hn : 0 ≤ n
  · rw [if_pos hn, if_neg (by omega), Nat.toList_repr, List.nil_append]
    congr 1
    omega
  · rw [if_neg hn, if_pos (by omega), String.toList_append, Nat.toList_repr]
    congr 2
    omega

/-- The decimal text of a number has digits only, and at least one. -/
theorem isDigit_of_mem_toDigits {n : Nat} {ch : Char} (h : ch ∈ Nat.toDigits 10 n) :
    isDigit ch = true :=
  Nat.isDigit_of_mem_toDigits (b := 10) (by decide) (by decide) h

theorem exists_toDigits_eq_cons (n : Nat) :
    ∃ d ds, Nat.toDigits 10 n = d :: ds ∧ isDigit d = true := by
  obtain ⟨d, ds, h⟩ := List.exists_cons_of_ne_nil (Nat.toDigits_ne_nil (b := 10) (n := n))
  exact ⟨d, ds, h, isDigit_of_mem_toDigits (by rw [h]; exact List.mem_cons_self)⟩

namespace Numeral

/-- What stands before the digits. -/
def sign (negative : Bool) : Text := if negative then ['-'] else []

@[simp] theorem sign_false : sign false = [] := rfl

@[simp] theorem size_sign (negative : Bool) : (sign negative).size = negative.toNat := by
  cases negative <;> rfl

/-- A text begins with a numeral: with a minus sign or without, and then with as many digits as
there are, which may be none. -/
structure Leads (t : Text) (negative : Bool) (digits rest : Text) : Prop where
  minus : negative = t.opensWith (· = '-')
  span : Text.LongestFront isDigit (t.drop negative.toNat) digits rest

variable {t digits rest : Text} {negative : Bool}

theorem exists_leads (t : Text) : ∃ negative digits rest, Leads t negative digits rest :=
  ⟨_, _, _, rfl, .of_takeWhile _ _⟩

theorem Leads.text (h : Leads t negative digits rest) : t = sign negative ++ (digits ++ rest) := by
  obtain ⟨hminus, hspan⟩ := h
  rw [← hspan.text]
  cases negative with
  | false => rfl
  | true =>
    cases t with
    | nil => cases hminus
    | cons ch t =>
      obtain rfl : ch = '-' := of_decide_eq_true hminus.symm
      rfl

/-- Behind a minus sign there may be another one, but not where there is none. -/
theorem Leads.opensWith_minus (h : Leads t negative digits rest) (hn : negative = false) :
    (digits ++ rest).opensWith (· = '-') = false := by
  subst hn
  have ht := h.text
  rw [sign_false, List.nil_append] at ht
  rw [← ht]
  exact h.minus.symm

/-- Digits make a numeral with a sign and without. -/
theorem leads_of_digits (negative : Bool) (hne : digits ≠ [])
    (hdigits : ∀ ch ∈ digits, isDigit ch = true) (hrest : rest.opensWith isDigit = false) :
    Leads (sign negative ++ (digits ++ rest)) negative digits rest := by
  have hspan : Text.LongestFront isDigit (digits ++ rest) digits rest := ⟨rfl, hdigits, hrest⟩
  cases negative with
  | true => exact ⟨rfl, hspan⟩
  | false =>
    refine ⟨?_, hspan⟩
    -- without a sign the text begins with a digit, which is no minus sign
    obtain ⟨d, ds, rfl⟩ := List.exists_cons_of_ne_nil hne
    rw [sign_false, List.nil_append, List.cons_append, Text.opensWith_cons]
    refine (decide_eq_false fun hd => ?_).symm
    have hdigit := hdigits d List.mem_cons_self
    rw [hd] at hdigit
    cases hdigit

/-- A digit takes one byte. -/
theorem size_digits (h : ∀ ch ∈ digits, isDigit ch = true) : digits.size = digits.length := by
  induction digits with
  | nil => rfl
  | cons ch digits ih =>
    obtain ⟨hch, hdigits⟩ := List.forall_mem_cons.1 h
    have hle : ch.val ≤ '9'.val := of_decide_eq_true (Bool.and_eq_true_iff.1 hch).2
    have hsize : ch.utf8Size = 1 := Char.utf8Size_eq_one_iff.2 (UInt32.le_trans hle (by decide))
    rw [Text.size_cons, List.length_cons, hsize, ih hdigits, Nat.add_comm]

end Numeral

namespace Parser

variable {c : Cursor} {negative : Bool} {digits rest : Text} {n : Int}

/-- A text begins with a minus sign or does not. -/
theorem reads_sign (negative : Bool) (hrest : negative = false → rest.opensWith (· = '-') = false) :
    (optional (literal "-")).Reads (Numeral.sign negative)
      (if negative then some ['-'] else none) rest := by
  cases negative with
  | true => exact (reads_literal "-" rest).optional
  | false =>
    refine Refuses.optional (refuses_literal ?_)
    cases rest with
    | nil => rfl
    | cons ch rest =>
      have hch : ch ≠ '-' := of_decide_eq_false (hrest rfl)
      exact Bool.and_eq_false_imp.2 fun h => absurd (beq_iff_eq.1 h).symm hch

/-- Behind the sign the digits decide, and what they denote. -/
theorem number_of_leads (hc : c.IsValid) (h : Numeral.Leads c.remaining negative digits rest) :
    number c = alt [takeWhile1 isDigit] (some "digit") (c.past (Numeral.sign negative)) >>= fun r =>
      (Numeral.value? .word negative r.1).elim
        (.error ((c.past (Numeral.sign negative)).fail "integer within i64 range"))
        fun n => .ok (n, r.2) := by
  have hsign := reads_sign negative h.opensWith_minus c ⟨hc, h.text⟩
  have hsome : (if negative then some ['-'] else none : Option Text).isSome = negative := by
    cases negative <;> rfl
  rw [number, hsign, Outcome.ok_bind]
  simp only [hsome]
  congr 1
  funext r
  cases Numeral.value? .word negative r.1 <;> rfl

theorem takeWhile1_of_leads (hc : c.IsValid) (h : Numeral.Leads c.remaining negative digits rest) :
    takeWhile1 isDigit (c.past (Numeral.sign negative)) =
      if digits = [] then .error ((c.past (Numeral.sign negative)).fail "")
      else .ok (digits, c.past (Numeral.sign negative ++ digits)) := by
  have hbefore : c.Before (Numeral.sign negative ++ (digits ++ rest)) := ⟨hc, h.text⟩
  rw [← Cursor.past_past]
  exact nonEmpty_of_ok (reads_takeWhile h.span.inside h.span.outside _ hbefore.past)

theorem number_without_digits (hc : c.IsValid) (h : Numeral.Leads c.remaining negative [] rest) :
    number c = .error (.failure
      { (c.past (Numeral.sign negative)).failure "digit" with kind := .aggregate }) := by
  have hspan := takeWhile1_of_leads hc h
  rw [if_pos rfl] at hspan
  rw [number_of_leads hc h, alt_of_missed (some "digit") (attempts_cons_failure hspan)]
  rfl

/-- Digits are read as the integer that they denote, if it has sixty-four bits. -/
theorem number_with_digits (hc : c.IsValid) (h : Numeral.Leads c.remaining negative digits rest)
    (hne : digits ≠ []) : number c = (Bounds.word.admit? (Numeral.denoted negative digits)).elim
      (.error ((c.past (Numeral.sign negative)).fail "integer within i64 range"))
      fun n => .ok (n, c.past (Numeral.sign negative ++ digits)) := by
  have hspan := takeWhile1_of_leads hc h
  rw [if_neg hne] at hspan
  rw [number_of_leads hc h, alt_of_ok hspan, Outcome.ok_bind,
    Numeral.value?_eq (by decide) (by decide)]

theorem reads_number (negative : Bool) (hne : digits ≠ []) (hdigits : ∀ ch ∈ digits, isDigit ch = true)
    (hrest : rest.opensWith isDigit = false)
    (hn : Bounds.word.admit? (Numeral.denoted negative digits) = some n) :
    number.Reads (Numeral.sign negative ++ digits) n rest := by
  intro c hc
  have hleads := Numeral.leads_of_digits negative hne hdigits hrest
  rw [← List.append_assoc, ← hc.remaining] at hleads
  rw [number_with_digits hc.valid hleads hne, hn, Option.elim_some]

theorem refuses_number (hminus : rest.opensWith (· = '-') = false)
    (hdigit : rest.opensWith isDigit = false) : number.Refuses rest := by
  intro c hc
  have hleads : Numeral.Leads c.remaining false [] rest := by
    rw [hc.remaining]
    exact ⟨hminus.symm, rfl, List.forall_mem_nil _, hdigit⟩
  exact ⟨_, number_without_digits hc.valid hleads⟩

/-- The decimal text of an integer of sixty-four bits is read as that integer. -/
theorem reads_toString (hn : Bounds.word.admit? n = some n) (hrest : rest.opensWith isDigit = false) :
    number.Reads (toString n).toList n rest := by
  have hdenoted : Numeral.denoted (decide (n < 0)) (Nat.toDigits 10 n.natAbs) = n := by
    rw [Numeral.denoted, Nat.ofDigitChars_ten_toDigits]
    by_cases hneg : n < 0
    · rw [decide_eq_true hneg, if_pos rfl]
      omega
    · rw [decide_eq_false hneg, if_neg Bool.false_ne_true]
      omega
  have hread := reads_number (decide (n < 0)) Nat.toDigits_ne_nil
    (fun _ => isDigit_of_mem_toDigits) hrest (by rw [hdenoted]; exact hn)
  rw [toList_toString]
  simpa only [Numeral.sign, decide_eq_true_eq] using hread

end Parser

/-! ## Numerals of any length -/

/-- The integer has sixty-four bits, one of them for the sign. -/
def Numeral.Fits (n : Int) : Prop := -9223372036854775808 ≤ n ∧ n ≤ 9223372036854775807

instance (n : Int) : Decidable (Numeral.Fits n) := inferInstanceAs (Decidable (_ ∧ _))

theorem Numeral.admit?_word (n : Int) :
    Bounds.word.admit? n = if Numeral.Fits n then some n else none := rfl

namespace Parser

/-- A numeral of any length is read as the integer that it denotes if that integer fits, and refused
at its digits if it does not. The value that is built up is at every digit what the digits so far
denote, or given up because that does not fit. -/
theorem number_exact {c : Cursor} (hc : c.IsValid) :
    (∃ negative digits rest, Numeral.Leads c.remaining negative digits rest) ∧
    ∀ negative digits rest, Numeral.Leads c.remaining negative digits rest →
      (digits = [] → number c = .error (.failure
        ⟨⟨c.source, c.position + negative.toNat⟩, "digit", .aggregate, c.config.snippetLimit⟩)) ∧
      (digits ≠ [] → Numeral.Fits (Numeral.denoted negative digits) →
        ∃ d, number c = .ok (Numeral.denoted negative digits, d) ∧ d.remaining = rest ∧
          d = ⟨c.source, c.position + negative.toNat + digits.length, c.config⟩) ∧
      (digits ≠ [] → ¬ Numeral.Fits (Numeral.denoted negative digits) →
        number c = .error (.failure ⟨⟨c.source, c.position + negative.toNat⟩,
          "integer within i64 range", .atomic, c.config.snippetLimit⟩)) ∧
      (∀ front, front <+: digits → front.foldlM (Numeral.extendDown? .word) 0 =
        if Numeral.Fits (Numeral.denoted true front) then some (Numeral.denoted true front)
        else none) ∧
      (Numeral.value? .word negative digits = none ↔
        ¬ Numeral.Fits (Numeral.denoted negative digits)) := by
  refine ⟨Numeral.exists_leads _, fun negative digits rest h => ?_⟩
  have hfront : (c.past (Numeral.sign negative)).position = c.position + negative.toNat :=
    congrArg (c.position + ·) (Numeral.size_sign negative)
  refine ⟨?_, fun hne hfits => ?_, fun hne hfits => ?_, fun front _ => ?_, ?_⟩
  · rintro rfl
    rw [number_without_digits hc h, ← hfront]
    rfl
  · have hbefore : c.Before ((Numeral.sign negative ++ digits) ++ rest) := by
      refine ⟨hc, ?_⟩
      rw [List.append_assoc, ← h.text]
    rw [number_with_digits hc h hne, Numeral.admit?_word, if_pos hfits]
    refine ⟨_, rfl, hbefore.past.remaining, ?_⟩
    rw [← Cursor.past_past, Cursor.past, Numeral.size_digits h.span.inside, ← hfront]
    rfl
  · rw [number_with_digits hc h hne, Numeral.admit?_word, if_neg hfits, ← hfront]
    rfl
  · exact Numeral.foldlM_extendDown? (b := .word) (by decide) front (m := 0) (by decide)
  · rw [Numeral.value?_eq (by decide) (by decide), Numeral.admit?_word, ite_eq_right_iff]
    simp only [reduceCtorEq, imp_false]

/-- The least integer is read with a sign in front of it, and what it denotes without one is too
large. Behind one sign a second one is no digit. -/
theorem number_exact_least :
    Cursor.IsValid ⟨"é-09223372036854775808;".toList, 2, ⟨.fail, some 1⟩⟩ ∧
    number ⟨"é-09223372036854775808;".toList, 2, ⟨.fail, some 1⟩⟩ =
      .ok (-9223372036854775808, ⟨"é-09223372036854775808;".toList, 23, ⟨.fail, some 1⟩⟩) ∧
    Cursor.IsValid ⟨"é-09223372036854775808;".toList, 3, ⟨.fail, some 1⟩⟩ ∧
    number ⟨"é-09223372036854775808;".toList, 3, ⟨.fail, some 1⟩⟩ = .error (.failure
      ⟨⟨"é-09223372036854775808;".toList, 3⟩, "integer within i64 range", .atomic, some 1⟩) ∧
    Cursor.IsValid ⟨"--1".toList, 0, ⟨.stop, none⟩⟩ ∧
    number ⟨"--1".toList, 0, ⟨.stop, none⟩⟩ =
      .error (.failure ⟨⟨"--1".toList, 1⟩, "digit", .aggregate, none⟩) := by
  have hsigned : Cursor.IsValid ⟨"é-09223372036854775808;".toList, 2, ⟨.fail, some 1⟩⟩ := by decide
  have hplain : Cursor.IsValid ⟨"é-09223372036854775808;".toList, 3, ⟨.fail, some 1⟩⟩ := by decide
  have hsigns : Cursor.IsValid ⟨"--1".toList, 0, ⟨.stop, none⟩⟩ := by decide
  refine ⟨hsigned, ?_, hplain, ?_, hsigns, ?_⟩
  · obtain ⟨-, hfits, -⟩ := (number_exact hsigned).2 true "09223372036854775808".toList [';']
      ⟨rfl, by decide +kernel, List.all_eq_true.1 rfl, rfl⟩
    obtain ⟨d, hd, -, rfl⟩ := hfits (by decide) (by decide)
    exact hd
  · obtain ⟨-, -, hlarge, -⟩ := (number_exact hplain).2 false "09223372036854775808".toList [';']
      ⟨rfl, by decide +kernel, List.all_eq_true.1 rfl, rfl⟩
    exact hlarge (by decide) (by decide)
  · obtain ⟨hnone, -⟩ := (number_exact hsigns).2 true [] "-1".toList
      ⟨rfl, rfl, List.forall_mem_nil _, rfl⟩
    exact hnone rfl

end Parser

end Backtrack
