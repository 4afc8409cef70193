import Mathlib.Data.List.Basic
import Mathlib.Tactic.IntervalCases
import QueueAssignment.Json.Reader
import QueueAssignment.Json.Writer

/-!
The tokens of JSON as bytes, and that the readers take exactly one token. A number has no end of its
own, so it is read only where nothing follows that would go on with it.
-/
namespace QueueAssignment.Json

def encode (text : List Char) : Bytes := text.flatMap String.utf8EncodeChar

section Encoding

variable {text : List Char} {c : Char}

theorem encode_cons (c : Char) (text : List Char) :
    encode (c :: text) = String.utf8EncodeChar c ++ encode text := List.flatMap_cons

theorem encode_append (first second : List Char) :
    encode (first ++ second) = encode first ++ encode second := List.flatMap_append

theorem utf8EncodeChar_ascii (small : c.toNat < 0x80) :
    String.utf8EncodeChar c = [UInt8.ofNat c.toNat] := by
  have below : c.val.toNat ≤ 127 := Nat.le_of_lt_succ small
  simp only [String.utf8EncodeChar, if_pos below]
  rfl

/-- No byte of a character beyond ASCII is one of ASCII, and none has its five upper bits set. -/
theorem utf8EncodeChar_high (large : 0x80 ≤ c.toNat) :
    ∀ b ∈ String.utf8EncodeChar c, 0x80 ≤ b.toNat ∧ b.toNat < 0xf8 := by
  intro b member
  have above : ¬ c.val.toNat ≤ 127 := Nat.not_le_of_gt large
  simp only [String.utf8EncodeChar, if_neg above] at member
  split at member
  · simp only [List.mem_cons, List.not_mem_nil, or_false] at member
    rcases member with rfl | rfl <;> simp only [UInt8.toNat_ofNat'] <;> omega
  · split at member
    · simp only [List.mem_cons, List.not_mem_nil, or_false] at member
      rcases member with rfl | rfl | rfl <;> simp only [UInt8.toNat_ofNat'] <;> omega
    · simp only [List.mem_cons, List.not_mem_nil, or_false] at member
      rcases member with rfl | rfl | rfl | rfl <;> simp only [UInt8.toNat_ofNat'] <;> omega

theorem lt_of_mem_utf8EncodeChar {b : UInt8} (member : b ∈ String.utf8EncodeChar c) :
    b.toNat < 0xf8 := by
  by_cases small : c.toNat < 0x80
  · rw [utf8EncodeChar_ascii small, List.mem_singleton] at member
    rw [member, UInt8.toNat_ofNat']
    omega
  · exact (utf8EncodeChar_high (Nat.le_of_not_lt small) b member).2

theorem bytes_ofList (text : List Char) :
    (String.ofList text).toUTF8.data.toList = encode text := by
  change (String.ofList text).toByteArray.data.toList = encode text
  rw [String.toByteArray_ofList]
  simp [encode, List.utf8Encode]

theorem fromUTF8?_encode (text : List Char) :
    String.fromUTF8? ⟨(encode text).toArray⟩ = some (String.ofList text) := by
  have same : (⟨(encode text).toArray⟩ : ByteArray) = text.utf8Encode := by
    simp [encode, List.utf8Encode, ByteArray.ext_iff]
  rw [same]
  have valid : text.utf8Encode.IsValidUTF8 := ⟨text, rfl⟩
  rw [String.fromUTF8?, dif_pos valid]
  rfl

end Encoding

def Blanks (bytes : Bytes) : Prop := ∀ b ∈ bytes, isBlank b = true

/-- Nothing follows that would go on with a number. -/
def Ends (rest : Bytes) : Prop :=
  ∀ b ∈ rest.head?, isDigit b = false ∧ b ≠ 0x2e ∧ b ≠ 0x65 ∧ b ≠ 0x45

section Blanks

variable {before rest : Bytes} {b : UInt8}

theorem blanks_nil : Blanks [] := fun _ member => absurd member List.not_mem_nil

theorem dropWhile_blanks (blanks : Blanks before) (bytes : Bytes) :
    (before ++ bytes).dropWhile isBlank = bytes.dropWhile isBlank := by
  induction before with
  | nil => rfl
  | cons b more ih =>
    rw [List.cons_append, List.dropWhile_cons_of_pos (blanks b List.mem_cons_self)]
    exact ih fun c member => blanks c (List.mem_cons_of_mem b member)

theorem peek_blanks (blanks : Blanks before) (bytes : Bytes) :
    peek (before ++ bytes) = peek bytes := by
  rw [peek, dropWhile_blanks blanks, peek]

theorem peek_cons (solid : isBlank b = false) : peek (b :: rest) = .ok (b, b :: rest) := by
  rw [peek, List.dropWhile_cons_of_neg (Bool.eq_false_iff.mp solid)]

theorem ends_nil : Ends [] := fun _ member => absurd member nofun

theorem ends_cons (last : isDigit b = false ∧ b ≠ 0x2e ∧ b ≠ 0x65 ∧ b ≠ 0x45) :
    Ends (b :: rest) := by
  intro c member
  cases member
  exact last

theorem ends_of_blank (blank : isBlank b = true) : Ends (b :: rest) := by
  apply ends_cons
  simp only [isBlank, Bool.or_eq_true, decide_eq_true_eq] at blank
  rcases blank with ((rfl | rfl) | rfl) | rfl
  · decide
  · decide
  · decide
  · decide

theorem ends_blanks (blanks : Blanks before) (ends : Ends rest) : Ends (before ++ rest) := by
  cases before with
  | nil => exact ends
  | cons b more => exact ends_of_blank (blanks b List.mem_cons_self)

theorem startsWithDigit_of_ends (ends : Ends rest) : startsWithDigit rest = false := by
  cases rest with
  | nil => rfl
  | cons b more => exact (ends b rfl).1

end Blanks

def numeral (n : Nat) : Bytes := encode (writeNat n)

section Numerals

variable {n : Nat} {rest : Bytes}

theorem numeral_of_lt (small : n < 10) : numeral n = [UInt8.ofNat (0x30 + n)] := by
  rw [numeral, writeNat, Nat.toDigits_of_lt_base small]
  interval_cases n <;> rfl

theorem numeral_of_le (large : 10 ≤ n) :
    numeral n = numeral (n / 10) ++ numeral (n % 10) := by
  have digit : Nat.toDigits 10 (n % 10) = [(n % 10).digitChar] :=
    Nat.toDigits_of_lt_base (Nat.mod_lt n (by omega))
  rw [numeral, writeNat, Nat.toDigits_eq_if (by omega), if_neg (by omega), encode_append, ← digit]
  rfl

theorem digit_of_lt (small : n < 10) : isDigit (UInt8.ofNat (0x30 + n)) = true ∧
    digitValue (UInt8.ofNat (0x30 + n)) = n := by
  interval_cases n <;> decide

theorem isDigit_of_mem_numeral : ∀ b ∈ numeral n, isDigit b = true := by
  induction n using Nat.strongRecOn with
  | ind n ih =>
    intro b member
    by_cases small : n < 10
    · rw [numeral_of_lt small, List.mem_singleton] at member
      exact member ▸ (digit_of_lt small).1
    · rw [numeral_of_le (by omega), List.mem_append] at member
      rcases member with front | back
      · exact ih (n / 10) (by omega) b front
      · exact ih (n % 10) (by omega) b back

def continued (sofar : Nat) (digits : Bytes) : Nat :=
  digits.foldl (fun sofar b => 10 * sofar + digitValue b) sofar

theorem le_continued (sofar : Nat) (digits : Bytes) : sofar ≤ continued sofar digits := by
  induction digits generalizing sofar with
  | nil => exact Nat.le_refl _
  | cons b more ih =>
    have later := ih (10 * sofar + digitValue b)
    simp only [continued, List.foldl_cons] at later ⊢
    omega

theorem continued_numeral (n : Nat) : continued 0 (numeral n) = n := by
  induction n using Nat.strongRecOn with
  | ind n ih =>
    by_cases small : n < 10
    · rw [numeral_of_lt small]
      simp only [continued, List.foldl_cons, List.foldl_nil, (digit_of_lt small).2]
      omega
    · have front := ih (n / 10) (by omega)
      have low : n % 10 < 10 := Nat.mod_lt n (by omega)
      simp only [continued] at front ⊢
      rw [numeral_of_le (by omega), List.foldl_append, front, numeral_of_lt low]
      simp only [List.foldl_cons, List.foldl_nil, (digit_of_lt low).2]
      omega

theorem numeral_eq_cons (positive : 0 < n) : ∃ b more, numeral n = b :: more ∧ b ≠ 0x30 := by
  induction n using Nat.strongRecOn with
  | ind n ih =>
    by_cases small : n < 10
    · refine ⟨_, [], numeral_of_lt small, ?_⟩
      interval_cases n <;> decide
    · obtain ⟨b, more, front, first⟩ := ih (n / 10) (by omega) (by omega)
      rw [numeral_of_le (by omega), front]
      exact ⟨b, _, rfl, first⟩

theorem significand_digits {digits : Bytes} {sofar : Nat}
    (all : ∀ b ∈ digits, isDigit b = true) (fits : continued sofar digits < 0x10000000000000000)
    (ends : startsWithDigit rest = false) :
    significand sofar (digits ++ rest) = (continued sofar digits, rest) := by
  induction digits generalizing sofar with
  | nil =>
    cases rest with
    | nil => rfl
    | cons b more =>
      have other : isDigit b = false := ends
      simp [significand, continued, other]
  | cons b more ih =>
    have digit := all b List.mem_cons_self
    have bound : 10 * sofar + digitValue b ≤ continued sofar (b :: more) := le_continued _ more
    have small : 10 * sofar + digitValue b < 0x10000000000000000 := by omega
    rw [List.cons_append, significand, if_pos ⟨digit, small⟩,
      ih (fun c member => all c (List.mem_cons_of_mem b member)) fits]
    rfl

theorem afterInteger_ends (negative : Bool) (ends : Ends rest) :
    afterInteger negative n rest = .ok (integer negative n, rest) := by
  cases rest with
  | nil => rfl
  | cons b more =>
    obtain ⟨_, point, small, large⟩ := ends b rfl
    simp [afterInteger, point, small, large]

theorem number_numeral (negative : Bool) (fits : n < 0x10000000000000000) (ends : Ends rest) :
    number negative (numeral n ++ rest) = .ok (integer negative n, rest) := by
  have stops := startsWithDigit_of_ends ends
  by_cases zero : n = 0
  · subst zero
    simp [numeral_of_lt, number, stops, afterInteger_ends negative ends]
  · obtain ⟨b, more, front, first⟩ := numeral_eq_cons (Nat.pos_of_ne_zero zero)
    have digit : isDigit b = true := isDigit_of_mem_numeral b (front ▸ List.mem_cons_self)
    have taken : significand 0 (numeral n ++ rest) = (n, rest) := by
      have whole : continued 0 (numeral n) < 0x10000000000000000 :=
        (continued_numeral n).symm ▸ fits
      rw [significand_digits isDigit_of_mem_numeral whole stops, continued_numeral]
    rw [front, List.cons_append] at taken ⊢
    simp [number, first, digit, taken, stops, afterInteger_ends negative ends]

end Numerals

/-- The content of a string, between its quotes, in any spelling: characters as they are or as
    escapes, and those beyond the basic plane also as a pair of escaped units. -/
inductive Content : List Char → Bytes → Prop where
  | nil : Content [] []
  | plain {c : Char} {text : List Char} {bytes : Bytes} : 0x20 ≤ c.toNat → c ≠ '"' → c ≠ '\\' →
      Content text bytes → Content (c :: text) (String.utf8EncodeChar c ++ bytes)
  | escape {letter plain : UInt8} {text : List Char} {bytes : Bytes} :
      simpleEscape? letter = some plain → Content text bytes →
      Content (Char.ofNat plain.toNat :: text) (backslash :: letter :: bytes)
  | unit {a b c d : UInt8} {unit : Nat} {text : List Char} {bytes : Bytes} :
      unit? a b c d = some unit → isLeading unit = false → isTrailing unit = false →
      Content text bytes →
      Content (Char.ofNat unit :: text) (backslash :: unitLetter :: a :: b :: c :: d :: bytes)
  | pair {a b c d e f g h : UInt8} {leading trailing : Nat} {text : List Char} {bytes : Bytes} :
      unit? a b c d = some leading → isLeading leading = true →
      unit? e f g h = some trailing → isTrailing trailing = true → Content text bytes →
      Content (Char.ofNat (pairNumber leading trailing) :: text)
        (backslash :: unitLetter :: a :: b :: c :: d ::
          backslash :: unitLetter :: e :: f :: g :: h :: bytes)

section Contents

variable {text : List Char} {bytes rest : Bytes}

def Unescaped (b : UInt8) : Prop := 0x20 ≤ b ∧ b ≠ quote ∧ b ≠ backslash

theorem unescaped_of_high {b : UInt8} (high : 0x80 ≤ b.toNat) : Unescaped b := by
  refine ⟨UInt8.le_iff_toNat_le.mpr (Nat.le_trans (by decide) high), ?_, ?_⟩
  · rintro rfl
    exact absurd high (by decide)
  · rintro rfl
    exact absurd high (by decide)

theorem unescaped_utf8EncodeChar {c : Char} (visible : 0x20 ≤ c.toNat) (unquoted : c ≠ '"')
    (plain : c ≠ '\\') : ∀ b ∈ String.utf8EncodeChar c, Unescaped b := by
  intro b member
  by_cases small : c.toNat < 0x80
  · rw [utf8EncodeChar_ascii small, List.mem_singleton] at member
    have number : b.toNat = c.toNat := by
      rw [member, UInt8.toNat_ofNat']
      omega
    have distinct : ∀ d : Char, c ≠ d → c.toNat ≠ d.toNat :=
      fun d differs same => differs (Char.toNat_inj.mp same)
    refine ⟨UInt8.le_iff_toNat_le.mpr (number.symm ▸ visible), ?_, ?_⟩
    · rintro rfl
      exact distinct '"' unquoted number.symm
    · rintro rfl
      exact distinct '\\' plain number.symm
  · exact unescaped_of_high (utf8EncodeChar_high (Nat.le_of_not_lt small) b member).1

theorem prepend_append (first second : Bytes) (answer : Except Failure (Bytes × Bytes)) :
    prepend first (prepend second answer) = prepend (first ++ second) answer := by
  cases answer with
  | ok pair => simp [prepend]
  | error failure => rfl

theorem textContent_quote (rest : Bytes) : textContent (quote :: rest) = .ok ([], rest) := by
  rw [textContent.eq_def]
  exact if_pos rfl

theorem textContent_cons {b : UInt8} (unescaped : Unescaped b) (rest : Bytes) :
    textContent (b :: rest) = prepend [b] (textContent rest) := by
  obtain ⟨visible, unquoted, plain⟩ := unescaped
  rw [textContent.eq_def]
  dsimp only
  rw [if_neg unquoted, if_neg plain, if_neg (UInt8.not_lt.mpr visible)]

theorem textContent_escape {letter plain : UInt8} (escape : simpleEscape? letter = some plain)
    (rest : Bytes) :
    textContent (backslash :: letter :: rest) = prepend [plain] (textContent rest) := by
  rw [textContent.eq_def]
  dsimp only
  rw [if_neg (by decide), if_pos rfl, escape]

theorem textContent_unit {a b c d : UInt8} {unit : Nat} (found : unit? a b c d = some unit)
    (single : isLeading unit = false) (low : isTrailing unit = false) (rest : Bytes) :
    textContent (backslash :: unitLetter :: a :: b :: c :: d :: rest) =
      prepend (characterBytes unit) (textContent rest) := by
  rw [textContent.eq_def]
  dsimp only
  rw [if_neg (by decide), if_pos rfl]
  have letter : simpleEscape? unitLetter = none := by decide
  simp [letter, found, single, low]

theorem trailingUnit_pair {e f g h : UInt8} {trailing : Nat}
    (found : unit? e f g h = some trailing) (trails : isTrailing trailing = true) (rest : Bytes) :
    trailingUnit (backslash :: unitLetter :: e :: f :: g :: h :: rest) = .ok trailing := by
  simp [trailingUnit, found, Option.filter_some, trails]

theorem textContent_pair {a b c d e f g h : UInt8} {leading trailing : Nat}
    (leads : unit? a b c d = some leading) (isLead : isLeading leading = true)
    (trails : unit? e f g h = some trailing) (isTrail : isTrailing trailing = true)
    (rest : Bytes) :
    textContent (backslash :: unitLetter :: a :: b :: c :: d ::
        backslash :: unitLetter :: e :: f :: g :: h :: rest) =
      prepend (characterBytes (pairNumber leading trailing)) (textContent rest) := by
  have letter : simpleEscape? unitLetter = none := by decide
  have alone : isTrailing leading = false := by
    simp only [isLeading, isTrailing, Bool.and_eq_true, decide_eq_true_eq, Bool.and_eq_false_iff,
      decide_eq_false_iff_not] at isLead ⊢
    omega
  rw [textContent.eq_def]
  dsimp only
  rw [if_neg (by decide), if_pos rfl]
  simp [letter, leads, isLead, alone, trailingUnit_pair trails isTrail]

theorem textContent_unescaped {front : Bytes} (all : ∀ b ∈ front, Unescaped b) (more : Bytes) :
    textContent (front ++ more) = prepend front (textContent more) := by
  induction front with
  | nil =>
    rw [List.nil_append]
    cases textContent more <;> rfl
  | cons b front ih =>
    have later := ih fun c member => all c (List.mem_cons_of_mem b member)
    rw [List.cons_append, textContent_cons (all b List.mem_cons_self), later, prepend_append]
    rfl

theorem encode_simpleEscape {letter plain : UInt8}
    (escape : simpleEscape? letter = some plain) :
    String.utf8EncodeChar (Char.ofNat plain.toNat) = [plain] := by
  unfold simpleEscape? at escape
  split at escape
  · rename_i same
    cases escape
    rcases same with rfl | rfl | rfl <;> rfl
  · repeat' split at escape
    all_goals first | cases escape; rfl | cases escape

theorem textContent_content (content : Content text bytes) (rest : Bytes) :
    textContent (bytes ++ quote :: rest) = .ok (encode text, rest) := by
  induction content with
  | nil => exact textContent_quote rest
  | plain visible unquoted plain content ih =>
    rw [List.append_assoc,
      textContent_unescaped (unescaped_utf8EncodeChar visible unquoted plain), ih, encode_cons]
    rfl
  | escape escape content ih =>
    rw [encode_cons, encode_simpleEscape escape, List.cons_append, List.cons_append,
      textContent_escape escape, ih]
    rfl
  | unit found single low content ih =>
    simp only [List.cons_append]
    rw [textContent_unit found single low, ih, encode_cons]
    rfl
  | pair leads isLead trails isTrail content ih =>
    simp only [List.cons_append]
    rw [textContent_pair leads isLead trails isTrail, ih, encode_cons]
    rfl

theorem text_content (content : Content text bytes) (rest : Bytes) :
    Json.text (bytes ++ quote :: rest) = .ok (String.ofList text, rest) := by
  rw [Json.text, textContent_content content]
  dsimp only
  rw [fromUTF8?_encode]

end Contents

end QueueAssignment.Json
