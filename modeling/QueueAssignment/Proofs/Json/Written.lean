import Mathlib.Tactic.IntervalCases
import QueueAssignment.Proofs.Json.Records

/-!
What is written is one of the texts that are read: strings with the escapes they need, lists and
objects without white space.
-/
namespace QueueAssignment.Json

section Strings

variable {c : Char} {text : List Char} {bytes : Bytes}

theorem encode_backslash (letter : Char) (small : letter.toNat < 0x80) (rest : List Char) :
    encode ('\\' :: letter :: rest) = backslash :: UInt8.ofNat letter.toNat :: encode rest := by
  rw [encode_cons, encode_cons, utf8EncodeChar_ascii small, utf8EncodeChar_ascii (by decide)]
  rfl

def lettered : List Char := ['"', '\\', '\x08', '\x0c', '\n', '\r', '\t']

theorem escape_lettered (member : c ∈ lettered) : ∃ letter plain, letter.toNat < 0x80 ∧
    escape c = ['\\', letter] ∧ simpleEscape? (UInt8.ofNat letter.toNat) = some plain ∧
      Char.ofNat plain.toNat = c := by
  simp only [lettered, List.mem_cons, List.not_mem_nil, or_false] at member
  rcases member with rfl | rfl | rfl | rfl | rfl | rfl | rfl <;>
    exact ⟨_, _, by decide, rfl, rfl, rfl⟩

theorem content_lettered (member : c ∈ lettered) (content : Content text bytes) :
    Content (c :: text) (encode (escape c) ++ bytes) := by
  obtain ⟨letter, plain, small, same, read, rfl⟩ := escape_lettered member
  rw [same, encode_backslash letter small]
  exact .escape read content

theorem unit?_control {n : Nat} (small : n < 0x20) : ∃ c d,
    encode ['\\', 'u', '0', '0', hexDigit (n / 16), hexDigit (n % 16)] =
      [backslash, unitLetter, 0x30, 0x30, c, d] ∧ unit? 0x30 0x30 c d = some n := by
  interval_cases n <;> exact ⟨_, _, rfl, rfl⟩

theorem content_control (control : c.toNat < 0x20) (content : Content text bytes) :
    Content (c :: text) (encode
      ['\\', 'u', '0', '0', hexDigit (c.toNat / 16), hexDigit (c.toNat % 16)] ++ bytes) := by
  obtain ⟨a, b, same, unit⟩ := unit?_control control
  have single : isLeading c.toNat = false := by
    simp only [isLeading, Bool.and_eq_false_iff, decide_eq_false_iff_not]
    omega
  have low : isTrailing c.toNat = false := by
    simp only [isTrailing, Bool.and_eq_false_iff, decide_eq_false_iff_not]
    omega
  have spelled := Content.unit unit single low content
  rw [Char.ofNat_toNat] at spelled
  rw [same]
  exact spelled

theorem content_escape (c : Char) (content : Content text bytes) :
    Content (c :: text) (encode (escape c) ++ bytes) := by
  -- A control character without a letter is written as a unit, any other one as it is.
  by_cases member : c ∈ lettered
  · exact content_lettered member content
  · simp only [lettered, List.mem_cons, List.not_mem_nil, or_false, not_or] at member
    obtain ⟨unquoted, plain, back, feed, line, carriage, tab⟩ := member
    simp only [escape, if_neg unquoted, if_neg plain, if_neg back, if_neg feed, if_neg line,
      if_neg carriage, if_neg tab]
    split
    · rename_i control
      exact content_control control content
    · rename_i visible
      have single : encode [c] = String.utf8EncodeChar c := List.append_nil _
      rw [single]
      exact .plain (Nat.le_of_not_lt visible) unquoted plain content

theorem content_flatMap_escape (text : List Char) :
    Content text (encode (text.flatMap escape)) := by
  induction text with
  | nil => exact .nil
  | cons c rest ih =>
    rw [List.flatMap_cons, encode_append]
    exact content_escape c ih

theorem encode_quote (rest : List Char) : encode ('"' :: rest) = quote :: encode rest := by
  rw [encode_cons, utf8EncodeChar_ascii (by decide)]
  rfl

theorem encode_writeText (text : String) : encode (writeText text) =
    quote :: (encode (text.toList.flatMap escape) ++ [quote]) := by
  rw [writeText, encode_quote, encode_append, encode_quote]
  rfl

theorem quoted_writeText (text : String) : Quoted text (encode (writeText text)) :=
  ⟨_, content_flatMap_escape text.toList, encode_writeText text⟩

theorem escape_digit (digit : c.isDigit = true) : escape c = [c] := by
  have visible : ¬ c.toNat < 0x20 := by
    simp only [Char.isDigit, Bool.and_eq_true, decide_eq_true_eq] at digit
    have low : 48 ≤ c.toNat := UInt32.le_iff_toNat_le.mp digit.1
    omega
  have apart : ∀ d : Char, d.isDigit = false → c ≠ d := by
    rintro d other rfl
    exact absurd digit (Bool.eq_false_iff.mp other)
  simp only [escape, if_neg (apart '"' rfl), if_neg (apart '\\' rfl), if_neg (apart '\x08' rfl),
    if_neg (apart '\x0c' rfl), if_neg (apart '\n' rfl), if_neg (apart '\r' rfl),
    if_neg (apart '\t' rfl), if_neg visible]

theorem encode_writeText_writeNat (n : Nat) :
    encode (writeText (String.ofList (writeNat n))) = quote :: (numeral n ++ [quote]) := by
  have plain : ∀ c ∈ writeNat n, escape c = [c] := fun c member =>
    escape_digit (Nat.isDigit_of_mem_toDigits (by decide) (by decide) member)
  rw [encode_writeText, String.toList_ofList, List.flatMap_congr plain, List.flatMap_singleton']
  rfl

end Strings

section Nests

variable {ι : Type} {spells : ι → Bytes → Prop} {write : ι → List Char} {items : List ι}
  {name : ι → String}

theorem listed_separated {item : ι} (spelled : ∀ x ∈ item :: items, spells x (encode (write x))) :
    Listed spells (item :: items) (encode (separated ((item :: items).map write))) := by
  induction items generalizing item with
  | nil =>
    have last := Listed.last blanks_nil (spelled item List.mem_cons_self) blanks_nil
    rwa [List.nil_append, List.append_nil] at last
  | cons next rest ih =>
    have first := spelled item List.mem_cons_self
    have others := ih fun x member => spelled x (List.mem_cons_of_mem item member)
    have more := Listed.more blanks_nil first blanks_nil others
    simp only [List.nil_append] at more
    simp only [List.map_cons, separated, encode_append, encode_cons]
    exact more

theorem inside_separated (spelled : ∀ item ∈ items, spells item (encode (write item))) :
    Inside spells items (encode (separated (items.map write))) := by
  cases items with
  | nil => exact .none blanks_nil
  | cons item rest => exact .some (listed_separated spelled)

theorem enclosed_writeList (spelled : ∀ item ∈ items, spells item (encode (write item))) :
    Enclosed .list spells items (encode (writeList (items.map write))) := by
  refine ⟨_, inside_separated spelled, ?_⟩
  rw [writeList, encode_cons, encode_append]
  rfl

theorem enclosed_writeObject
    (spelled : ∀ item ∈ items,
      spells item (encode (writeText (name item) ++ ':' :: write item))) :
    Enclosed .object spells items
      (encode (writeObject (items.map fun item => (name item, write item)))) := by
  refine ⟨_, inside_separated spelled, ?_⟩
  rw [writeObject, List.map_map, encode_cons, encode_append]
  rfl

theorem named_write {label value : List Char} {bytes : Bytes}
    (quoted : encode label = quote :: (bytes ++ [quote])) :
    Named bytes (encode value) (encode (label ++ ':' :: value)) := by
  refine ⟨[], [], blanks_nil, blanks_nil, ?_⟩
  rw [encode_append, encode_cons, quoted, List.cons_append, List.append_assoc]
  rfl

theorem labelled_write {item : ι} (spelled : spells item (encode (write item))) :
    Labelled name spells item (encode (writeText (name item) ++ ':' :: write item)) :=
  ⟨_, _, content_flatMap_escape _, spelled, named_write (encode_writeText _)⟩

end Nests

end QueueAssignment.Json
