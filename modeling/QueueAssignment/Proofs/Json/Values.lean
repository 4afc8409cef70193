import QueueAssignment.Proofs.Json.Spelling

/-!
The grammar of JSON values, and that skipping a value reads just that value, whatever its depth.
-/
namespace QueueAssignment.Json

/-- The content of a string that is only checked escape by escape. -/
inductive Unread : Bytes → Prop where
  | nil : Unread []
  | plain {b : UInt8} {bytes : Bytes} : Unescaped b → Unread bytes → Unread (b :: bytes)
  | escape {letter : UInt8} {bytes : Bytes} : (simpleEscape? letter).isSome = true →
      Unread bytes → Unread (backslash :: letter :: bytes)
  | unit {a b c d : UInt8} {bytes : Bytes} : (unit? a b c d).isSome = true →
      Unread bytes → Unread (backslash :: unitLetter :: a :: b :: c :: d :: bytes)

def Digits (bytes : Bytes) : Prop := bytes ≠ [] ∧ ∀ b ∈ bytes, isDigit b = true

def Whole (bytes : Bytes) : Prop := bytes = [0x30] ∨ Digits bytes ∧ bytes.head? ≠ some 0x30

inductive Fraction : Bytes → Prop where
  | none : Fraction []
  | digits {digits : Bytes} : Digits digits → Fraction (0x2e :: digits)

inductive Exponent : Bytes → Prop where
  | none : Exponent []
  | plain {letter : UInt8} {digits : Bytes} : letter = 0x65 ∨ letter = 0x45 → Digits digits →
      Exponent (letter :: digits)
  | signed {letter sign : UInt8} {digits : Bytes} : letter = 0x65 ∨ letter = 0x45 →
      sign = 0x2b ∨ sign = 0x2d → Digits digits → Exponent (letter :: sign :: digits)

mutual

inductive Value : Bytes → Prop where
  | null : Value (ascii "null")
  | yes : Value (ascii "true")
  | no : Value (ascii "false")
  | natural {whole fraction exponent : Bytes} : Whole whole → Fraction fraction →
      Exponent exponent → Value (whole ++ (fraction ++ exponent))
  | negative {whole fraction exponent : Bytes} : Whole whole → Fraction fraction →
      Exponent exponent → Value (0x2d :: (whole ++ (fraction ++ exponent)))
  | text {content : Bytes} : Unread content → Value (quote :: (content ++ [quote]))
  | emptyList {inside : Bytes} : Blanks inside → Value (0x5b :: (inside ++ [0x5d]))
  | list {elements : Bytes} : Elements elements → Value (0x5b :: (elements ++ [0x5d]))
  | emptyObject {inside : Bytes} : Blanks inside → Value (0x7b :: (inside ++ [0x7d]))
  | object {members : Bytes} : Members members → Value (0x7b :: (members ++ [0x7d]))

inductive Elements : Bytes → Prop where
  | last {before value after : Bytes} : Blanks before → Value value → Blanks after →
      Elements (before ++ (value ++ after))
  | more {before value after rest : Bytes} : Blanks before → Value value → Blanks after →
      Elements rest → Elements (before ++ (value ++ (after ++ 0x2c :: rest)))

inductive Members : Bytes → Prop where
  | last {before name between gap value after : Bytes} : Blanks before → Unread name →
      Blanks between → Blanks gap → Value value → Blanks after →
      Members (before ++ quote :: (name ++ quote :: (between ++ 0x3a :: (gap ++ (value ++ after)))))
  | more {before name between gap value after rest : Bytes} : Blanks before → Unread name →
      Blanks between → Blanks gap → Value value → Blanks after → Members rest →
      Members (before ++ quote :: (name ++ quote ::
        (between ++ 0x3a :: (gap ++ (value ++ (after ++ 0x2c :: rest))))))

end

section Tokens

variable {bytes digits rest : Bytes}

theorem skipText_quote (rest : Bytes) : skipText (quote :: rest) = .ok ((), rest) := by
  rw [skipText.eq_def]
  exact if_pos rfl

theorem skipText_unread (unread : Unread bytes) (rest : Bytes) :
    skipText (bytes ++ quote :: rest) = .ok ((), rest) := by
  induction unread with
  | nil => exact skipText_quote rest
  | plain unescaped unread ih =>
    obtain ⟨visible, unquoted, plain⟩ := unescaped
    rw [List.cons_append, skipText.eq_def]
    dsimp only
    rw [if_neg unquoted, if_neg plain, if_neg (UInt8.not_lt.mpr visible), ih]
  | escape escape unread ih =>
    rw [List.cons_append, List.cons_append, skipText.eq_def]
    dsimp only
    rw [if_neg (by decide), if_pos rfl, if_pos escape, ih]
  | unit found unread ih =>
    have letter : (simpleEscape? unitLetter).isSome = false := by decide
    simp only [List.cons_append]
    rw [skipText.eq_def]
    dsimp only
    rw [if_neg (by decide), if_pos rfl]
    simp [letter, found, ih]

theorem dropWhile_digits (all : ∀ b ∈ digits, isDigit b = true)
    (stops : startsWithDigit rest = false) : (digits ++ rest).dropWhile isDigit = rest := by
  induction digits with
  | nil =>
    cases rest with
    | nil => rfl
    | cons b more => exact List.dropWhile_cons_of_neg (Bool.eq_false_iff.mp stops)
  | cons b more ih =>
    rw [List.cons_append, List.dropWhile_cons_of_pos (all b List.mem_cons_self)]
    exact ih fun c member => all c (List.mem_cons_of_mem b member)

theorem Digits.startsWithDigit (some : Digits digits) (rest : Bytes) :
    Json.startsWithDigit (digits ++ rest) = true := by
  obtain ⟨filled, all⟩ := some
  cases digits with
  | nil => exact absurd rfl filled
  | cons b more => exact all b List.mem_cons_self

theorem Exponent.stops (exponent : Exponent bytes) (ends : Ends rest) :
    startsWithDigit (bytes ++ rest) = false := by
  cases exponent with
  | none => exact startsWithDigit_of_ends ends
  | plain letter some => rcases letter with rfl | rfl <;> rfl
  | signed letter sign some => rcases letter with rfl | rfl <;> rfl

theorem skipExponent_digits (some : Digits digits) (ends : Ends rest) :
    skipExponent (digits ++ rest) = .ok ((), rest) := by
  have starts := some.startsWithDigit rest
  have dropped := dropWhile_digits some.2 (startsWithDigit_of_ends ends)
  cases front : digits ++ rest with
  | nil =>
    rw [front] at starts
    cases starts
  | cons b more =>
    rw [front] at starts dropped
    have digit : isDigit b = true := starts
    have unsigned : ¬ (b = 0x2d ∨ b = 0x2b) := by
      rintro (rfl | rfl)
      · exact absurd digit (by decide)
      · exact absurd digit (by decide)
    simp only [skipExponent, if_neg unsigned, starts, if_true, dropped]

theorem skipExponent_exponent {letter : UInt8} (exponent : Exponent (letter :: bytes))
    (ends : Ends rest) : (letter = 0x65 ∨ letter = 0x45) ∧
      skipExponent (bytes ++ rest) = .ok ((), rest) := by
  cases exponent with
  | plain isLetter some => exact ⟨isLetter, skipExponent_digits some ends⟩
  | @signed _ sign digits isLetter isSign some =>
    refine ⟨isLetter, ?_⟩
    have starts := some.startsWithDigit rest
    have dropped := dropWhile_digits some.2 (startsWithDigit_of_ends ends)
    have signed : sign = 0x2d ∨ sign = 0x2b := isSign.symm
    simp only [skipExponent, List.cons_append, if_pos signed, starts, if_true, dropped]

theorem skipDecimal_digits (some : Digits digits) (exponent : Exponent bytes) (ends : Ends rest) :
    skipDecimal (digits ++ (bytes ++ rest)) = .ok ((), rest) := by
  have starts := some.startsWithDigit (bytes ++ rest)
  have dropped := dropWhile_digits some.2 (exponent.stops ends)
  simp only [skipDecimal, starts, Bool.not_true, Bool.false_eq_true, if_false, dropped]
  cases bytes with
  | nil =>
    cases rest with
    | nil => rfl
    | cons b more =>
      obtain ⟨_, _, small, large⟩ := ends b rfl
      simp [small, large]
  | cons letter more =>
    obtain ⟨isLetter, skipped⟩ := skipExponent_exponent exponent ends
    simp only [List.cons_append, if_pos isLetter, skipped]

theorem skipNumber_whole {whole tail : Bytes} (isWhole : Whole whole)
    (stops : startsWithDigit tail = false) :
    skipNumber (whole ++ tail) =
      match tail with
      | b :: more =>
          if b = 0x2e then skipDecimal more
          else if b = 0x65 ∨ b = 0x45 then skipExponent more
          else .ok ((), tail)
      | [] => .ok ((), tail) := by
  have left : (if (whole ++ tail).head? = some 0x30 then (whole ++ tail).drop 1
      else (whole ++ tail).dropWhile isDigit) = tail := by
    rcases isWhole with rfl | ⟨some, first⟩
    · rfl
    · have head : (whole ++ tail).head? = whole.head? := List.head?_append_of_ne_nil _ some.1
      rw [if_neg (head ▸ first), dropWhile_digits some.2 stops]
  have starts : startsWithDigit (whole ++ tail) = true := by
    rcases isWhole with rfl | ⟨some, _⟩
    · rfl
    · exact some.startsWithDigit tail
  simp only [skipNumber, starts, Bool.not_true, Bool.false_eq_true, if_false, left]
  cases tail with
  | nil => rfl
  | cons b more =>
    have other : isDigit b = false := stops
    simp only [other, Bool.false_eq_true, if_false]

theorem skipNumber_number {whole fraction exponent : Bytes} (isWhole : Whole whole)
    (isFraction : Fraction fraction) (isExponent : Exponent exponent) (ends : Ends rest) :
    skipNumber (whole ++ (fraction ++ (exponent ++ rest))) = .ok ((), rest) := by
  cases isFraction with
  | none =>
    rw [List.nil_append, skipNumber_whole isWhole (isExponent.stops ends)]
    cases exponent with
    | nil =>
      cases rest with
      | nil => rfl
      | cons b more =>
        obtain ⟨_, point, small, large⟩ := ends b rfl
        simp [point, small, large]
    | cons letter more =>
      obtain ⟨isLetter, skipped⟩ := skipExponent_exponent isExponent ends
      have point : letter ≠ 0x2e := by
        rcases isLetter with rfl | rfl
        · decide
        · decide
      simp only [List.cons_append, if_neg point, if_pos isLetter, skipped]
  | digits some =>
    rw [skipNumber_whole isWhole rfl]
    exact skipDecimal_digits some isExponent ends

theorem literal_append (wanted rest : Bytes) :
    literal wanted (wanted ++ rest) = .ok ((), rest) := by
  induction wanted with
  | nil => rfl
  | cons b more ih => rw [List.cons_append, literal, if_pos rfl, ih]

end Tokens

theorem digit_solid {b : UInt8} (digit : isDigit b = true) : isBlank b = false ∧ b ≠ 0x5d ∧
    (b ≠ 0x6e ∧ b ≠ 0x74 ∧ b ≠ 0x66 ∧ b ≠ 0x2d) ∧ b ≠ quote := by
  simp only [isDigit, Bool.and_eq_true, decide_eq_true_eq] at digit
  have low : 0x30 ≤ b.toNat := UInt8.le_iff_toNat_le.mp digit.1
  have high : b.toNat ≤ 0x39 := UInt8.le_iff_toNat_le.mp digit.2
  have apart : ∀ c : UInt8, ¬ (0x30 ≤ c.toNat ∧ c.toNat ≤ 0x39) → b ≠ c := by
    rintro c outside rfl
    exact outside ⟨low, high⟩
  have solid : isBlank b = false := by
    simp only [isBlank, Bool.or_eq_false_iff, decide_eq_false_iff_not]
    exact ⟨⟨⟨apart _ (by decide), apart _ (by decide)⟩, apart _ (by decide)⟩, apart _ (by decide)⟩
  exact ⟨solid, apart _ (by decide),
    ⟨apart _ (by decide), apart _ (by decide), apart _ (by decide), apart _ (by decide)⟩,
    apart _ (by decide)⟩

def Skips (bound : Nat) (expected : Expected) (open_ : List Nest) (bytes : Bytes)
    (final : Expected) (inner : List Nest) (rest : Bytes) : Prop :=
  ∃ steps ≤ bound, ∀ budget,
    skipLoop (steps + budget) expected open_ bytes = skipLoop budget final inner rest

section Skipping

variable {bound more : Nat} {expected middle final : Expected}
  {open_ between inner outer : List Nest} {nest : Nest} {bytes left rest before after : Bytes}
  {b : UInt8}

theorem Skips.trans (first : Skips bound expected open_ bytes middle between left)
    (second : Skips more middle between left final inner rest) :
    Skips (bound + more) expected open_ bytes final inner rest := by
  obtain ⟨m, le, skipped⟩ := first
  obtain ⟨n, few, skips⟩ := second
  refine ⟨m + n, Nat.add_le_add le few, fun budget => ?_⟩
  rw [Nat.add_assoc, skipped, skips]

theorem Skips.widen (skips : Skips bound expected open_ bytes final inner rest)
    (le : bound ≤ more) : Skips more expected open_ bytes final inner rest := by
  obtain ⟨steps, few, skipped⟩ := skips
  exact ⟨steps, Nat.le_trans few le, skipped⟩

theorem Skips.one (step : ∀ budget,
    skipLoop (budget + 1) expected open_ bytes = skipLoop budget final inner rest) :
    Skips 1 expected open_ bytes final inner rest :=
  ⟨1, Nat.le_refl 1, fun budget => by rw [Nat.add_comm, step]⟩

/-- White space counts only where the outermost value is over. -/
theorem skipLoop_blanks (blanks : Blanks before) (goes : expected ≠ .next) (budget : Nat)
    (open_ : List Nest) (bytes : Bytes) :
    skipLoop budget expected open_ (before ++ bytes) = skipLoop budget expected open_ bytes := by
  cases budget with
  | zero => rfl
  | succ budget =>
    cases expected with
    | next => exact absurd rfl goes
    | value | first | name => simp only [skipLoop, dropWhile_blanks blanks]

theorem Skips.blanks (blanks : Blanks before) (goes : expected ≠ .next)
    (skips : Skips bound expected open_ bytes final inner rest) :
    Skips bound expected open_ (before ++ bytes) final inner rest := by
  obtain ⟨steps, few, skipped⟩ := skips
  refine ⟨steps, few, fun budget => ?_⟩
  rw [skipLoop_blanks blanks goes, skipped]

theorem dropWhile_token (blanks : Blanks before) (solid : isBlank b = false) :
    (before ++ b :: rest).dropWhile isBlank = b :: rest := by
  rw [dropWhile_blanks blanks, List.dropWhile_cons_of_neg (Bool.eq_false_iff.mp solid)]

theorem skips_comma (blanks : Blanks after) (rest : Bytes) :
    Skips 1 .next (nest :: outer) (after ++ 0x2c :: rest) nest.member (nest :: outer) rest := by
  refine .one fun budget => ?_
  simp only [skipLoop, dropWhile_token blanks (show isBlank 0x2c = false by decide), if_true]

theorem isBlank_closing (nest : Nest) : isBlank nest.closing = false := by
  cases nest <;> decide

theorem skips_close (blanks : Blanks after) (rest : Bytes) :
    Skips 1 .next (nest :: outer) (after ++ nest.closing :: rest) .next outer rest := by
  refine .one fun budget => ?_
  have other : nest.closing ≠ 0x2c := by cases nest <;> decide
  simp only [skipLoop, dropWhile_token blanks (isBlank_closing nest), if_neg other, if_true]

theorem skips_empty (blanks : Blanks before) (rest : Bytes) :
    Skips 1 .first (nest :: outer) (before ++ nest.closing :: rest) .next outer rest := by
  refine .one fun budget => ?_
  simp only [skipLoop, dropWhile_token blanks (isBlank_closing nest), if_true]

theorem skips_first (blanks : Blanks before) (solid : isBlank b = false)
    (filled : b ≠ nest.closing) (rest : Bytes) :
    Skips 1 .first (nest :: outer) (before ++ b :: rest) nest.member (nest :: outer)
      (before ++ b :: rest) := by
  refine .one fun budget => ?_
  have goes : nest.member ≠ .next := by cases nest <;> decide
  rw [skipLoop_blanks blanks goes]
  simp only [skipLoop, dropWhile_token blanks solid, if_neg filled]

theorem skips_start (solid : isBlank b = false)
    (started : skipStart open_ b bytes = .ok (final, inner, rest)) :
    Skips 1 .value open_ (b :: bytes) final inner rest := by
  refine .one fun budget => ?_
  simp only [skipLoop, List.dropWhile_cons_of_neg (Bool.eq_false_iff.mp solid), started]

theorem skips_name (unread : Unread bytes) (blanks : Blanks after) (rest : Bytes) :
    Skips 1 .name open_ (quote :: (bytes ++ quote :: (after ++ 0x3a :: rest)))
      .value open_ rest := by
  refine .one fun budget => ?_
  have named : skipName quote (bytes ++ quote :: (after ++ 0x3a :: rest)) = .ok ((), rest) := by
    simp [skipName, skipText_unread unread,
      dropWhile_token blanks (show isBlank 0x3a = false by decide)]
  simp only [skipLoop, List.dropWhile_cons_of_neg (show ¬ isBlank quote = true by decide), named]

theorem ends_token (blanks : Blanks after)
    (last : isDigit b = false ∧ b ≠ 0x2e ∧ b ≠ 0x65 ∧ b ≠ 0x45) : Ends (after ++ b :: rest) :=
  ends_blanks blanks (ends_cons last)

end Skipping

theorem Value.begins {value : Bytes} (isValue : Value value) :
    ∃ b more, value = b :: more ∧ isBlank b = false ∧ b ≠ 0x5d := by
  cases isValue with
  | null | yes | no => exact ⟨_, _, rfl, by decide, by decide⟩
  | negative | text | emptyList | list | emptyObject | object =>
    exact ⟨_, _, rfl, by decide, by decide⟩
  | @natural whole fraction exponent isWhole _ _ =>
    rcases isWhole with rfl | ⟨some, _⟩
    · exact ⟨_, _, rfl, by decide, by decide⟩
    · obtain ⟨filled, all⟩ := some
      cases whole with
      | nil => exact absurd rfl filled
      | cons b more =>
        obtain ⟨solid, unclosed, _⟩ := digit_solid (all b List.mem_cons_self)
        exact ⟨b, _, rfl, solid, unclosed⟩

theorem Elements.begins {elements : Bytes} (isElements : Elements elements) :
    ∃ before b more, elements = before ++ b :: more ∧ Blanks before ∧ isBlank b = false ∧
      b ≠ 0x5d := by
  cases isElements with
  | last blanks isValue | more blanks isValue =>
    obtain ⟨b, more, rfl, solid, unclosed⟩ := isValue.begins
    exact ⟨_, b, _, rfl, blanks, solid, unclosed⟩

theorem Members.begins {members : Bytes} (isMembers : Members members) :
    ∃ before more, members = before ++ quote :: more ∧ Blanks before := by
  cases isMembers with
  | last blanks | more blanks => exact ⟨_, _, rfl, blanks⟩

theorem skips_number {whole fraction exponent rest : Bytes} {open_ : List Nest}
    (isWhole : Whole whole) (isFraction : Fraction fraction) (isExponent : Exponent exponent)
    (ends : Ends rest) :
    Skips 1 .value open_ (whole ++ (fraction ++ (exponent ++ rest))) .next open_ rest := by
  have skipped := skipNumber_number isWhole isFraction isExponent ends
  obtain ⟨b, more, begins, digit⟩ : ∃ b more, whole = b :: more ∧ isDigit b = true := by
    rcases isWhole with rfl | ⟨⟨filled, all⟩, _⟩
    · exact ⟨_, [], rfl, by decide⟩
    · cases whole with
      | nil => exact absurd rfl filled
      | cons b more => exact ⟨b, more, rfl, all b List.mem_cons_self⟩
  subst begins
  obtain ⟨solid, _, letter, text⟩ := digit_solid digit
  refine skips_start solid ?_
  rw [List.cons_append] at skipped
  simp only [skipStart, if_neg letter.1, if_neg letter.2.1, if_neg letter.2.2.1,
    if_neg letter.2.2.2, digit, if_true, skipped, List.append_eq]

theorem Value.pos {value : Bytes} (isValue : Value value) : 0 < value.length := by
  obtain ⟨b, more, rfl, _⟩ := isValue.begins
  exact Nat.succ_pos _

theorem ends_separator : isDigit 0x2c = false ∧ (0x2c : UInt8) ≠ 0x2e ∧ (0x2c : UInt8) ≠ 0x65 ∧
    (0x2c : UInt8) ≠ 0x45 := by decide

theorem ends_closing (nest : Nest) : isDigit nest.closing = false ∧ nest.closing ≠ 0x2e ∧
    nest.closing ≠ 0x65 ∧ nest.closing ≠ 0x45 := by
  cases nest <;> decide

theorem skips_openList (open_ : List Nest) (rest : Bytes) :
    Skips 1 .value open_ (0x5b :: rest) .first (.list :: open_) rest :=
  skips_start (by decide) rfl

theorem skips_openObject (open_ : List Nest) (rest : Bytes) :
    Skips 1 .value open_ (0x7b :: rest) .first (.object :: open_) rest :=
  skips_start (by decide) rfl

theorem Elements.skips_first {elements : Bytes} (isElements : Elements elements) (rest : Bytes)
    (outer : List Nest) :
    Skips 1 .first (.list :: outer) (elements ++ 0x5d :: rest) .value (.list :: outer)
      (elements ++ 0x5d :: rest) := by
  obtain ⟨before, b, more, rfl, blanks, solid, unclosed⟩ := isElements.begins
  have filled : b ≠ Nest.list.closing := unclosed
  rw [List.append_assoc, List.cons_append]
  exact Json.skips_first blanks solid filled (more ++ 0x5d :: rest)

theorem Members.skips_first {members : Bytes} (isMembers : Members members) (rest : Bytes)
    (outer : List Nest) :
    Skips 1 .first (.object :: outer) (members ++ 0x7d :: rest) .name (.object :: outer)
      (members ++ 0x7d :: rest) := by
  obtain ⟨before, more, rfl, blanks⟩ := isMembers.begins
  rw [List.append_assoc, List.cons_append]
  exact Json.skips_first blanks (by decide) (by decide) (more ++ 0x7d :: rest)

mutual

/-- Skipping reads the value and nothing else. -/
theorem Value.skips {value : Bytes} (isValue : Value value) {rest : Bytes} (ends : Ends rest)
    (open_ : List Nest) :
    Skips (2 * value.length) .value open_ (value ++ rest) .next open_ rest := by
  have pos := isValue.pos
  match isValue with
  | .null | .yes | .no =>
    refine (skips_start (by decide) ?_).widen (by decide)
    rfl
  | .natural isWhole isFraction isExponent =>
    simp only [List.append_assoc]
    exact (skips_number isWhole isFraction isExponent ends).widen (by omega)
  | .negative isWhole isFraction isExponent =>
    have skipped := skipNumber_number isWhole isFraction isExponent ends
    simp only [List.cons_append, List.append_assoc]
    refine (skips_start (by decide) ?_).widen (by omega)
    simp only [skipStart, skipped]
    rfl
  | .text unread =>
    have skipped := skipText_unread unread rest
    simp only [List.cons_append, List.append_assoc, List.nil_append]
    refine (skips_start (by decide) ?_).widen (by omega)
    simp only [skipStart, skipped]
    rfl
  | .emptyList blanks =>
    simp only [List.cons_append, List.append_assoc, List.nil_append]
    refine ((skips_openList open_ _).trans (skips_empty blanks rest)).widen ?_
    simp only [List.length_cons, List.length_append, List.length_nil]
    omega
  | .list elements =>
    have inside := (elements.skips_first rest open_).trans (elements.skips rest open_)
    simp only [List.cons_append, List.append_assoc, List.nil_append]
    refine ((skips_openList open_ _).trans inside).widen ?_
    simp only [List.length_cons, List.length_append, List.length_nil]
    omega
  | .emptyObject blanks =>
    simp only [List.cons_append, List.append_assoc, List.nil_append]
    refine ((skips_openObject open_ _).trans (skips_empty blanks rest)).widen ?_
    simp only [List.length_cons, List.length_append, List.length_nil]
    omega
  | .object members =>
    have inside := (members.skips_first rest open_).trans (members.skips rest open_)
    simp only [List.cons_append, List.append_assoc, List.nil_append]
    refine ((skips_openObject open_ _).trans inside).widen ?_
    simp only [List.length_cons, List.length_append, List.length_nil]
    omega

theorem Elements.skips {elements : Bytes} (isElements : Elements elements) (rest : Bytes)
    (outer : List Nest) :
    Skips (2 * elements.length + 1) .value (.list :: outer) (elements ++ 0x5d :: rest) .next outer
      rest := by
  match isElements with
  | @Elements.last before value after blanks isValue tail =>
    have ends : Ends (after ++ 0x5d :: rest) := ends_token tail (ends_closing .list)
    have all := (isValue.skips ends (.list :: outer)).trans (skips_close tail rest)
    simp only [List.append_assoc]
    refine (all.blanks blanks (by decide)).widen ?_
    simp only [List.length_append]
    omega
  | @Elements.more before value after later blanks isValue tail others =>
    have ends : Ends (after ++ 0x2c :: (later ++ 0x5d :: rest)) := ends_token tail ends_separator
    have one := (isValue.skips ends (.list :: outer)).trans (skips_comma tail _)
    have all := one.trans (others.skips rest outer)
    simp only [List.append_assoc, List.cons_append]
    refine (all.blanks blanks (by decide)).widen ?_
    simp only [List.length_cons, List.length_append]
    omega

theorem Members.skips {members : Bytes} (isMembers : Members members) (rest : Bytes)
    (outer : List Nest) :
    Skips (2 * members.length + 1) .name (.object :: outer) (members ++ 0x7d :: rest) .next outer
      rest := by
  match isMembers with
  | @Members.last before name between gap value after blanks unread colon space isValue tail =>
    have ends : Ends (after ++ 0x7d :: rest) := ends_token tail (ends_closing .object)
    have read := (isValue.skips ends (.object :: outer)).trans (skips_close tail rest)
    have all := (skips_name unread colon _).trans (read.blanks space (by decide))
    simp only [List.append_assoc, List.cons_append]
    refine (all.blanks blanks (by decide)).widen ?_
    simp only [List.length_cons, List.length_append]
    omega
  | @Members.more before name between gap value after later blanks unread colon space isValue tail
      others =>
    have ends : Ends (after ++ 0x2c :: (later ++ 0x7d :: rest)) := ends_token tail ends_separator
    have one := (isValue.skips ends (.object :: outer)).trans (skips_comma tail _)
    have read := one.trans (others.skips rest outer)
    have all := (skips_name unread colon _).trans (read.blanks space (by decide))
    simp only [List.append_assoc, List.cons_append]
    refine (all.blanks blanks (by decide)).widen ?_
    simp only [List.length_cons, List.length_append]
    omega

end

theorem skipValue_value {before value rest : Bytes} (blanks : Blanks before)
    (isValue : Value value) (ends : Ends rest) :
    skipValue (before ++ (value ++ rest)) = .ok ((), rest) := by
  obtain ⟨steps, few, skipped⟩ := (isValue.skips ends []).blanks blanks (by decide)
  have enough : 2 * (before ++ (value ++ rest)).length + 2 =
      steps + (2 * (before ++ (value ++ rest)).length + 1 - steps + 1) := by
    simp only [List.length_append]
    omega
  rw [skipValue, enough, skipped]
  rfl

end QueueAssignment.Json
