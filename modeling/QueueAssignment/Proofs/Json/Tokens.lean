import QueueAssignment.Proofs.Json.Values

/-!
What is read as a number or a string is skipped to the same place, whatever stands there.
-/
namespace QueueAssignment.Json

theorem dropWhile_significand (sofar : Nat) (bytes : Bytes) :
    (significand sofar bytes).2.dropWhile isDigit = bytes.dropWhile isDigit := by
  fun_induction significand sofar bytes with
  | case1 => rfl
  | case2 sofar b rest fits ih => rw [ih, List.dropWhile_cons_of_pos fits.1]
  | case3 => rfl

theorem dropWhile_exponentDigits (sofar : Nat) (bytes : Bytes) :
    (exponentDigits sofar bytes).2.dropWhile isDigit = bytes.dropWhile isDigit := by
  fun_induction exponentDigits sofar bytes with
  | case1 => rfl
  | case2 sofar b rest fits ih => rw [ih, List.dropWhile_cons_of_pos fits.1]
  | case3 => rfl

theorem dropWhile_of_stops {bytes : Bytes} (stops : startsWithDigit bytes = false) :
    bytes.dropWhile isDigit = bytes := by
  cases bytes with
  | nil => rfl
  | cons b rest => exact List.dropWhile_cons_of_neg (Bool.eq_false_iff.mp stops)

theorem inexact_rest {digits : Nat} {exponent : Int} {bytes rest : Bytes} {n : Number}
    (read : inexact digits exponent bytes = .ok (n, rest)) : rest = bytes := by
  unfold inexact at read
  split at read <;> cases read
  rfl

def exponentAfter (digits : Nat) (scale : Int) (negative : Bool) (unsigned : Bytes) :
    Except Failure (Number × Bytes) :=
  match unsigned with
  | [] => .error .truncated
  | b :: _ =>
      if !isDigit b then .error .malformed
      else
        let (exponent, rest) := exponentDigits 0 unsigned
        if startsWithDigit rest then
          if digits ≠ 0 ∧ !negative then .error .malformed
          else .ok (.inexact, rest.dropWhile isDigit)
        else inexact digits (if negative then scale - exponent else scale + exponent) rest

section Numbers

variable {digits : Nat} {scale : Int} {negative : Bool} {b : UInt8} {bytes more rest : Bytes}
  {n : Number}

theorem exponentPart_cons (digits : Nat) (scale : Int) (b : UInt8) (more : Bytes) :
    exponentPart digits scale (b :: more) =
      if b = 0x2d then exponentAfter digits scale true more
      else if b = 0x2b then exponentAfter digits scale false more
      else exponentAfter digits scale false (b :: more) := by
  by_cases minus : b = 0x2d
  · subst minus
    rfl
  by_cases plus : b = 0x2b
  · subst plus
    rfl
  simp only [exponentPart, exponentAfter, if_neg minus, if_neg plus]

theorem exponentAfter_rest (read : exponentAfter digits scale negative bytes = .ok (n, rest)) :
    startsWithDigit bytes = true ∧ rest = bytes.dropWhile isDigit := by
  cases bytes with
  | nil => cases read
  | cons b more =>
    have dropped := dropWhile_exponentDigits 0 (b :: more)
    cases digit : isDigit b with
    | false =>
      simp [exponentAfter, digit] at read
    | true =>
      refine ⟨digit, ?_⟩
      cases stops : startsWithDigit (exponentDigits 0 (b :: more)).2 with
      | true =>
        simp only [exponentAfter, digit, stops, Bool.not_true, Bool.false_eq_true, if_false,
          if_true] at read
        split at read
        · cases read
        · cases read
          exact dropped
      | false =>
        simp only [exponentAfter, digit, stops, Bool.not_true, Bool.false_eq_true, if_false] at read
        rw [inexact_rest read, ← dropped, dropWhile_of_stops stops]

theorem skipExponent_of_exponentPart (read : exponentPart digits scale bytes = .ok (n, rest)) :
    skipExponent bytes = .ok ((), rest) := by
  cases bytes with
  | nil => cases read
  | cons b more =>
    rw [exponentPart_cons] at read
    split at read
    · rename_i minus
      obtain ⟨starts, rfl⟩ := exponentAfter_rest read
      simp [skipExponent, minus, starts]
    · split at read
      · rename_i plus
        obtain ⟨starts, rfl⟩ := exponentAfter_rest read
        simp [skipExponent, plus, starts]
      · rename_i minus plus
        obtain ⟨starts, rfl⟩ := exponentAfter_rest read
        simp [skipExponent, minus, plus, starts]

theorem significand_of_stops (stops : startsWithDigit bytes = false) (sofar : Nat) :
    significand sofar bytes = (sofar, bytes) := by
  cases bytes with
  | nil => rfl
  | cons b more =>
    have other : isDigit b = false := stops
    simp [significand, other]

theorem skipDecimal_of_exponentOrEnd (starts : startsWithDigit bytes = true)
    (read : exponentOrEnd digits scale (bytes.dropWhile isDigit) = .ok (n, rest)) :
    skipDecimal bytes = .ok ((), rest) := by
  cases left : bytes.dropWhile isDigit with
  | nil =>
    rw [left] at read
    cases inexact_rest read
    simp [skipDecimal, starts, left]
  | cons b more =>
    rw [left, exponentOrEnd] at read
    split at read
    · rename_i letter
      have skipped := skipExponent_of_exponentPart read
      simp [skipDecimal, starts, left, letter, skipped]
    · rename_i letter
      cases inexact_rest read
      simp [skipDecimal, starts, left, letter]

theorem skipDecimal_of_decimalPart (read : decimalPart digits scale bytes = .ok (n, rest)) :
    skipDecimal bytes = .ok ((), rest) := by
  cases starts : startsWithDigit bytes with
  | false =>
    simp [decimalPart, significand_of_stops starts, starts] at read
  | true =>
    have dropped := dropWhile_significand digits bytes
    unfold decimalPart at read
    simp only at read
    split at read
    · rw [dropped] at read
      exact skipDecimal_of_exponentOrEnd starts read
    · rename_i stops
      split at read
      · cases read
      · rw [← dropWhile_of_stops (Bool.eq_false_iff.mpr stops), dropped] at read
        exact skipDecimal_of_exponentOrEnd starts read

def skipTail (bytes : Bytes) : Except Failure (Unit × Bytes) :=
  match bytes with
  | b :: more =>
      if isDigit b then .error .malformed
      else if b = 0x2e then skipDecimal more
      else if b = 0x65 ∨ b = 0x45 then skipExponent more
      else .ok ((), b :: more)
  | [] => .ok ((), [])

theorem skipNumber_cons (digit : isDigit b = true) (more : Bytes) : skipNumber (b :: more) =
    skipTail (if b = 0x30 then more else (b :: more).dropWhile isDigit) := by
  have starts : startsWithDigit (b :: more) = true := digit
  by_cases zero : b = 0x30
  · subst zero
    cases more <;> rfl
  · simp only [skipNumber, starts, zero, List.head?_cons, Option.some.injEq, Bool.not_true,
      Bool.false_eq_true, if_false]
    cases (b :: more).dropWhile isDigit <;> rfl

theorem skipTail_of_afterInteger (stops : startsWithDigit bytes = false)
    (read : afterInteger negative digits bytes = .ok (n, rest)) :
    skipTail bytes = .ok ((), rest) := by
  cases bytes with
  | nil =>
    cases read
    rfl
  | cons b more =>
    have other : isDigit b = false := stops
    rw [afterInteger] at read
    split at read
    · rename_i point
      rw [skipTail, if_neg (Bool.eq_false_iff.mp other), if_pos point]
      exact skipDecimal_of_decimalPart read
    · rename_i point
      split at read
      · rename_i letter
        rw [skipTail, if_neg (Bool.eq_false_iff.mp other), if_neg point, if_pos letter]
        exact skipExponent_of_exponentPart read
      · rename_i letter
        cases read
        simp [skipTail, other, point, letter]

theorem skipTail_of_exponentOrEnd (stops : startsWithDigit bytes = false)
    (read : exponentOrEnd digits scale bytes = .ok (n, rest)) (point : bytes.head? ≠ some 0x2e) :
    skipTail bytes = .ok ((), rest) := by
  cases bytes with
  | nil =>
    cases inexact_rest read
    rfl
  | cons b more =>
    have other : isDigit b = false := stops
    have point : b ≠ 0x2e := fun same => point (congrArg some same)
    rw [exponentOrEnd] at read
    split at read
    · rename_i letter
      rw [skipTail, if_neg (Bool.eq_false_iff.mp other), if_neg point, if_pos letter]
      exact skipExponent_of_exponentPart read
    · rename_i letter
      cases inexact_rest read
      simp [skipTail, other, point, letter]

theorem stops_dropWhile (bytes : Bytes) : startsWithDigit (bytes.dropWhile isDigit) = false := by
  induction bytes with
  | nil => rfl
  | cons b more ih =>
    cases digit : isDigit b with
    | true => rwa [List.dropWhile_cons_of_pos digit]
    | false => rwa [List.dropWhile_cons_of_neg (Bool.eq_false_iff.mp digit)]

theorem skipTail_of_longInteger (read : longInteger digits bytes = .ok (n, rest)) :
    skipTail (bytes.dropWhile isDigit) = .ok ((), rest) := by
  have stops := stops_dropWhile bytes
  unfold longInteger at read
  simp only at read
  cases left : bytes.dropWhile isDigit with
  | nil =>
    rw [left] at read
    cases inexact_rest read
    rfl
  | cons b more =>
    rw [left] at read stops
    have other : isDigit b = false := stops
    simp only at read
    split at read
    · rename_i point
      rw [skipTail, if_neg (Bool.eq_false_iff.mp other), if_pos point]
      exact skipDecimal_of_decimalPart read
    · rename_i point
      exact skipTail_of_exponentOrEnd stops read fun same => point (Option.some.inj same)

theorem skipNumber_of_number (read : number negative bytes = .ok (n, rest)) :
    skipNumber bytes = .ok ((), rest) := by
  cases bytes with
  | nil => cases read
  | cons b more =>
    rw [number] at read
    split at read
    · rename_i zero
      split at read
      · cases read
      · rename_i stops
        rw [skipNumber_cons (zero ▸ by decide) more, if_pos zero]
        exact skipTail_of_afterInteger (Bool.eq_false_iff.mpr stops) read
    · rename_i zero
      split at read
      · rename_i digit
        have dropped := dropWhile_significand 0 (b :: more)
        rw [skipNumber_cons digit more, if_neg zero, ← dropped]
        simp only at read
        split at read
        · exact skipTail_of_longInteger read
        · rename_i stops
          have stops := Bool.eq_false_iff.mpr stops
          rw [dropWhile_of_stops stops]
          exact skipTail_of_afterInteger stops read
      · cases read

end Numbers

section Texts

variable {bytes front content rest : Bytes}

theorem prepend_rest {answer : Except Failure (Bytes × Bytes)}
    (read : prepend front answer = .ok (content, rest)) : ∃ after, answer = .ok (after, rest) := by
  cases answer with
  | error failure => cases read
  | ok pair =>
    cases read
    exact ⟨_, rfl⟩

theorem trailingUnit_cases {s u e f g h : UInt8} {trailing : Nat}
    (found : trailingUnit (s :: u :: e :: f :: g :: h :: bytes) = .ok trailing) :
    s = backslash ∧ u = unitLetter ∧ (unit? e f g h).isSome = true := by
  simp only [trailingUnit, ne_eq, ite_not] at found
  split at found
  · rename_i first
    split at found
    · rename_i second
      cases unit : unit? e f g h with
      | some unit => exact ⟨first, second, rfl⟩
      | none =>
        rw [unit] at found
        cases found
    · cases found
  · cases found

theorem skipText_escape {letter plain : UInt8} (escape : simpleEscape? letter = some plain)
    (more : Bytes) : skipText (backslash :: letter :: more) = skipText more := by
  rw [skipText.eq_def]
  dsimp only
  rw [if_neg (by decide), if_pos rfl, escape]
  rfl

theorem skipText_unit {a b c d : UInt8} (found : (unit? a b c d).isSome = true) (more : Bytes) :
    skipText (backslash :: unitLetter :: a :: b :: c :: d :: more) = skipText more := by
  have letter : (simpleEscape? unitLetter).isSome = false := by decide
  rw [skipText.eq_def]
  dsimp only
  rw [if_neg (by decide), if_pos rfl]
  simp [letter, found]

theorem skipText_of_textContent (read : textContent bytes = .ok (content, rest)) :
    skipText bytes = .ok ((), rest) := by
  fun_induction textContent bytes generalizing content with
  | case1 | case3 | case5 | case6 | case7 | case8 | case10 | case12 | case13 => cases read
  | case2 =>
    cases read
    exact skipText_quote rest
  | case4 _ _ plain escape _ ih =>
    obtain ⟨after, later⟩ := prepend_rest read
    rw [skipText_escape escape]
    exact ih later
  | case9 letter _ other a b c d unit found _ _ trailing s u e f g h more second _ ih =>
    obtain ⟨after, later⟩ := prepend_rest read
    obtain ⟨rfl, rfl, some⟩ := trailingUnit_cases second
    rw [not_not.mp other, skipText_unit (found ▸ rfl), skipText_unit some]
    exact ih later
  | case11 letter _ other a b c d more unit found _ _ _ ih =>
    obtain ⟨after, later⟩ := prepend_rest read
    rw [not_not.mp other, skipText_unit (found ▸ rfl)]
    exact ih later
  | case14 b more unquoted plain visible ih =>
    obtain ⟨after, later⟩ := prepend_rest read
    rw [skipText.eq_def]
    dsimp only
    rw [if_neg unquoted, if_neg plain, if_neg visible]
    exact ih later

theorem skipText_of_text {name : String} (read : text bytes = .ok (name, rest)) :
    skipText bytes = .ok ((), rest) := by
  unfold text at read
  cases found : textContent bytes with
  | error failure =>
    rw [found] at read
    cases read
  | ok pair =>
    rw [found] at read
    obtain ⟨content, after⟩ := pair
    simp only at read
    split at read
    · cases read
      exact skipText_of_textContent found
    · cases read

end Texts

section Plain

variable {bytes mid rest : Bytes} {b : UInt8}

/-- What stands in front of the rest could stand in a string as it is. -/
def Plain (bytes rest : Bytes) : Prop := ∃ front, bytes = front ++ rest ∧ ∀ b ∈ front, Unescaped b

theorem Plain.refl (bytes : Bytes) : Plain bytes bytes := ⟨[], rfl, nofun⟩

theorem Plain.trans (first : Plain bytes mid) (second : Plain mid rest) : Plain bytes rest := by
  obtain ⟨front, rfl, unescaped⟩ := first
  obtain ⟨more, rfl, others⟩ := second
  refine ⟨front ++ more, (List.append_assoc ..).symm, fun b member => ?_⟩
  rcases List.mem_append.mp member with member | member
  · exact unescaped b member
  · exact others b member

theorem Plain.cons (unescaped : Unescaped b) (plain : Plain bytes rest) : Plain (b :: bytes) rest :=
  Plain.trans ⟨[b], rfl, fun _ member => List.mem_singleton.mp member ▸ unescaped⟩ plain

theorem unescaped_digit (digit : isDigit b = true) : Unescaped b := by
  simp only [isDigit, Bool.and_eq_true, decide_eq_true_eq] at digit
  refine ⟨UInt8.le_trans (by decide) digit.1, ?_, ?_⟩
  · rintro rfl
    exact absurd digit (by decide)
  · rintro rfl
    exact absurd digit (by decide)

theorem plain_dropWhile (bytes : Bytes) : Plain bytes (bytes.dropWhile isDigit) := by
  induction bytes with
  | nil => exact .refl []
  | cons b rest ih =>
    cases digit : isDigit b with
    | true =>
      rw [List.dropWhile_cons_of_pos digit]
      exact ih.cons (unescaped_digit digit)
    | false =>
      rw [List.dropWhile_cons_of_neg (Bool.eq_false_iff.mp digit)]
      exact .refl _

theorem plain_skipExponent (skipped : skipExponent bytes = .ok ((), rest)) : Plain bytes rest := by
  have after : ∀ unsigned : Bytes, (if startsWithDigit unsigned then
      .ok ((), unsigned.dropWhile isDigit) else .error .malformed :
        Except Failure (Unit × Bytes)) = .ok ((), rest) → Plain unsigned rest := by
    intro unsigned same
    split at same
    · cases same
      exact plain_dropWhile unsigned
    · cases same
  cases bytes with
  | nil => exact after [] skipped
  | cons b more =>
    by_cases sign : b = 0x2d ∨ b = 0x2b
    · have skipped := after more (by simpa [skipExponent, sign] using skipped)
      refine skipped.cons ?_
      rcases sign with rfl | rfl
      · exact ⟨by decide, by decide, by decide⟩
      · exact ⟨by decide, by decide, by decide⟩
    · exact after (b :: more) (by simpa [skipExponent, sign] using skipped)

theorem unescaped_exponent (letter : b = 0x65 ∨ b = 0x45) : Unescaped b := by
  rcases letter with rfl | rfl
  · exact ⟨by decide, by decide, by decide⟩
  · exact ⟨by decide, by decide, by decide⟩

theorem plain_skipDecimal (skipped : skipDecimal bytes = .ok ((), rest)) : Plain bytes rest := by
  unfold skipDecimal at skipped
  split at skipped
  · cases skipped
  · refine (plain_dropWhile bytes).trans ?_
    cases left : bytes.dropWhile isDigit with
    | nil =>
      rw [left] at skipped
      cases skipped
      exact .refl []
    | cons b more =>
      rw [left] at skipped
      simp only at skipped
      split at skipped
      · rename_i letter
        exact (plain_skipExponent skipped).cons (unescaped_exponent letter)
      · cases skipped
        exact .refl _

theorem plain_skipTail (skipped : skipTail bytes = .ok ((), rest)) : Plain bytes rest := by
  cases bytes with
  | nil =>
    cases skipped
    exact .refl []
  | cons b more =>
    rw [skipTail] at skipped
    split at skipped
    · cases skipped
    split at skipped
    · rename_i point
      subst point
      exact (plain_skipDecimal skipped).cons ⟨by decide, by decide, by decide⟩
    split at skipped
    · rename_i letter
      exact (plain_skipExponent skipped).cons (unescaped_exponent letter)
    · cases skipped
      exact .refl _

theorem plain_skipNumber (skipped : skipNumber bytes = .ok ((), rest)) : Plain bytes rest := by
  cases bytes with
  | nil => cases skipped
  | cons b more =>
    cases digit : isDigit b with
    | false =>
      have other : startsWithDigit (b :: more) = false := digit
      simp [skipNumber, other] at skipped
    | true =>
      rw [skipNumber_cons digit] at skipped
      refine Plain.trans ?_ (plain_skipTail skipped)
      split
      · exact (Plain.refl more).cons (unescaped_digit digit)
      · exact plain_dropWhile (b :: more)

theorem Unread.prepend (unread : Unread rest) (unescaped : ∀ b ∈ bytes, Unescaped b) :
    Unread (bytes ++ rest) := by
  induction bytes with
  | nil => exact unread
  | cons b more ih =>
    exact .plain (unescaped b List.mem_cons_self)
      (ih fun c member => unescaped c (List.mem_cons_of_mem b member))

theorem skipText_of_plain (plain : Plain bytes (quote :: rest)) :
    skipText bytes = .ok ((), rest) := by
  obtain ⟨front, rfl, unescaped⟩ := plain
  have unread := Unread.nil.prepend unescaped
  rw [List.append_nil] at unread
  exact skipText_unread unread rest

end Plain

end QueueAssignment.Json
