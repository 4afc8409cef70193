import Mathlib.Data.List.TakeWhile
import QueueAssignment.Proofs.Json.Values

/-!
What the readers of typed values take: numbers, strings, lists and objects, with white space
wherever tokens meet. Text of the right kind that gives no value is refused as a mismatch.
-/
namespace QueueAssignment.Json

variable {α β : Type}

section Binding

variable {reader : Reader α} {next : α → Reader β} {bytes rest : Bytes} {value : α}

theorem bind_ok (read : reader bytes = .ok (value, rest)) :
    (reader >>= next) bytes = next value rest := by
  change (reader bytes >>= fun pair => next pair.1 pair.2) = _
  rw [read]
  rfl

theorem bind_error {failure : Failure} (read : reader bytes = .error failure) :
    (reader >>= next) bytes = .error failure := by
  change (reader bytes >>= fun pair => next pair.1 pair.2) = _
  rw [read]
  rfl

def answer (value? : Option α) (rest : Bytes) : Except Failure (α × Bytes) :=
  match value? with
  | some value => .ok (value, rest)
  | none => .error .mismatched

theorem bind_pure_answer {value? : Option α} (read : reader bytes = answer value? rest)
    (f : α → β) : (reader >>= fun value => pure (f value)) bytes = answer (value?.map f) rest := by
  cases value? with
  | some value => exact bind_ok read
  | none => exact bind_error read

end Binding

/-- The reader takes this text for the value, with white space in front, where nothing follows that
    would go on with a number. Without a value it refuses the text as a mismatch. -/
def Takes (reader : Reader α) (text : Bytes) (value? : Option α) : Prop :=
  ∀ ⦃before rest : Bytes⦄, Blanks before → Ends rest →
    reader (before ++ (text ++ rest)) = answer value? rest

theorem Takes.map {reader : Reader α} {text : Bytes} {value? : Option α}
    (takes : Takes reader text value?) (f : α → β) :
    Takes (reader >>= fun value => pure (f value)) text (value?.map f) :=
  fun _ _ blanks ends => bind_pure_answer (takes blanks ends) f

theorem peek_token {before rest : Bytes} {b : UInt8} (blanks : Blanks before)
    (solid : isBlank b = false) : peek (before ++ b :: rest) = .ok (b, b :: rest) := by
  rw [peek_blanks blanks, peek_cons solid]

def Quoted (content : String) (text : Bytes) : Prop :=
  ∃ bytes, Content content.toList bytes ∧ text = quote :: (bytes ++ [quote])

section Scalars

variable {before rest : Bytes} {n : Nat}

theorem takes_string {text : List Char} {bytes : Bytes} (content : Content text bytes) :
    Takes string (quote :: (bytes ++ [quote])) (some (String.ofList text)) := by
  intro before rest blanks _
  simp only [List.cons_append, List.append_assoc, List.nil_append, string]
  rw [bind_ok (peek_token blanks (by decide)), if_pos rfl]
  exact (bind_ok rfl).trans (text_content content rest)

theorem takes_quoted {content : String} {text : Bytes} (quoted : Quoted content text) :
    Takes string text (some content) := by
  obtain ⟨bytes, spelled, rfl⟩ := quoted
  have takes := takes_string spelled
  rwa [String.ofList_toList] at takes

theorem numeral_begins (n : Nat) : ∃ b more, numeral n = b :: more ∧ isDigit b = true := by
  cases digits : numeral n with
  | nil =>
    have empty := congrArg List.length digits
    by_cases zero : n = 0
    · rw [zero, numeral_of_lt (by decide)] at empty
      cases empty
    · obtain ⟨b, more, same, _⟩ := numeral_eq_cons (Nat.pos_of_ne_zero zero)
      rw [same] at empty
      cases empty
  | cons b more => exact ⟨b, more, rfl, isDigit_of_mem_numeral b (digits ▸ List.mem_cons_self)⟩

theorem anyNumber_numeral (blanks : Blanks before) (fits : n < 0x10000000000000000)
    (ends : Ends rest) : anyNumber (before ++ (numeral n ++ rest)) = .ok (.natural n, rest) := by
  have whole : number false (numeral n ++ rest) = .ok (.natural n, rest) :=
    number_numeral false fits ends
  obtain ⟨b, more, same, digit⟩ := numeral_begins n
  obtain ⟨solid, _, ⟨_, _, _, unsigned⟩, _⟩ := digit_solid digit
  rw [same, List.cons_append] at whole ⊢
  rw [anyNumber, bind_ok (peek_token blanks solid), if_neg unsigned, if_pos digit]
  exact whole

theorem anyNumber_negative (blanks : Blanks before) (positive : 0 < n)
    (fits : n ≤ 0x8000000000000000) (ends : Ends rest) :
    anyNumber (before ++ (0x2d :: numeral n ++ rest)) = .ok (.negative n, rest) := by
  have form : integer true n = .negative n := by
    have inside : ¬ (n = 0 ∨ 0x8000000000000000 < n) := by omega
    exact if_neg inside
  rw [List.cons_append, anyNumber, bind_ok (peek_token blanks (by decide)), if_pos rfl, ← form]
  exact (bind_ok rfl).trans (number_numeral true (by omega) ends)

theorem takes_natural {limit : Nat} (below : n < limit) (word : limit ≤ 0x10000000000000000) :
    Takes (natural limit) (numeral n) (some n) := by
  intro before rest blanks ends
  rw [natural, bind_ok (anyNumber_numeral blanks (by omega) ends)]
  dsimp only
  rw [if_pos below]
  rfl

theorem takes_word32 (word : UInt32) : Takes word32 (numeral word.toNat) (some word) := by
  have number : Takes (natural 0x100000000) (numeral word.toNat) (some word.toNat) :=
    takes_natural word.toNat_lt (by decide)
  have takes : Takes word32 (numeral word.toNat) (Option.map UInt32.ofNat (some word.toNat)) :=
    Takes.map number UInt32.ofNat
  rw [Option.map_some, UInt32.ofNat_toNat] at takes
  exact takes

theorem encode_negSucc (n : Nat) :
    encode (writeInt (.negSucc n)) = 0x2d :: numeral (n + 1) := by
  rw [writeInt, encode_cons, utf8EncodeChar_ascii (by decide)]
  rfl

theorem writeInt_begins (i : Int) :
    ∃ b more, encode (writeInt i) = b :: more ∧ isBlank b = false ∧ b ≠ 0x6e := by
  cases i with
  | ofNat n =>
    obtain ⟨b, more, same, digit⟩ := numeral_begins n
    obtain ⟨solid, _, letters, _⟩ := digit_solid digit
    exact ⟨b, more, same, solid, letters.1⟩
  | negSucc n => exact ⟨_, _, encode_negSucc n, by decide, by decide⟩

theorem takes_int64 (word : Int64) : Takes int64 (encode (writeInt word.toInt)) (some word) := by
  intro before rest blanks ends
  have low := word.le_toInt
  have high := word.toInt_lt
  cases form : word.toInt with
  | ofNat n =>
    have below : n < 0x8000000000000000 := by
      rw [form, Int.ofNat_eq_natCast] at high
      omega
    have same : Int64.ofNat n = word := by
      rw [← Int64.ofInt_toInt word, form]
      rfl
    have read := anyNumber_numeral (n := n) blanks (by omega) ends
    rw [writeInt, int64]
    refine (bind_ok read).trans ?_
    dsimp only
    rw [if_pos below, same]
    rfl
  | negSucc n =>
    have fits : n + 1 ≤ 0x8000000000000000 := by
      rw [form] at low
      omega
    have same : Int64.ofInt (-((n + 1 : Nat) : Int)) = word := by
      rw [← Int64.ofInt_toInt word, form]
      rfl
    have read := anyNumber_negative (n := n + 1) blanks (by omega) fits ends
    rw [encode_negSucc, int64]
    refine (bind_ok read).trans ?_
    dsimp only
    rw [same]
    rfl

end Scalars

inductive Listed {ι : Type} (spells : ι → Bytes → Prop) : List ι → Bytes → Prop where
  | last {item : ι} {before text after : Bytes} : Blanks before → spells item text →
      Blanks after → Listed spells [item] (before ++ (text ++ after))
  | more {item : ι} {items : List ι} {before text after rest : Bytes} : Blanks before →
      spells item text → Blanks after → Listed spells items rest →
      Listed spells (item :: items) (before ++ (text ++ (after ++ 0x2c :: rest)))

inductive Inside {ι : Type} (spells : ι → Bytes → Prop) : List ι → Bytes → Prop where
  | none {bytes : Bytes} : Blanks bytes → Inside spells [] bytes
  | some {items : List ι} {bytes : Bytes} : Listed spells items bytes → Inside spells items bytes

namespace Nest

def opening : Nest → UInt8
  | list => 0x5b
  | object => 0x7b

def more : Nest → Bool → Reader Bool
  | list => moreElements
  | object => moreMembers

/-- What is left of an item once `more` has seen that it comes: the quote of a name is read. -/
inductive Opened : Nest → Bytes → Bytes → Prop where
  | element {b : UInt8} {more : Bytes} : isBlank b = false → b ≠ 0x5d →
      Opened list (b :: more) (b :: more)
  | member (more : Bytes) : Opened object (quote :: more) more

def fold {σ : Type} (nest : Nest) (step : σ → Reader σ) : Nat → Bool → σ → Reader σ
  | 0, _, _ => throw .truncated
  | budget + 1, first, state => do
      if ← nest.more first then
        let state ← step state
        fold nest step budget false state
      else pure state

end Nest

def Enclosed {ι : Type} (nest : Nest) (spells : ι → Bytes → Prop) (items : List ι)
    (text : Bytes) : Prop :=
  ∃ bytes, Inside spells items bytes ∧ text = nest.opening :: (bytes ++ [nest.closing])

theorem foldElements_eq {σ : Type} (step : σ → Reader σ) (budget : Nat) (first : Bool)
    (state : σ) :
    foldElements step budget first state = Nest.list.fold step budget first state := by
  induction budget generalizing first state with
  | zero => rfl
  | succ budget ih => simp only [foldElements, Nest.fold, Nest.more, ih]

theorem foldMembers_eq {σ : Type} (step : σ → Reader σ) (budget : Nat) (first : Bool)
    (state : σ) :
    foldMembers step budget first state = Nest.object.fold step budget first state := by
  induction budget generalizing first state with
  | zero => rfl
  | succ budget ih => simp only [foldMembers, Nest.fold, Nest.more, ih]

section Folding

variable {ι σ : Type} {nest : Nest} {step : σ → Reader σ} {spells : ι → Bytes → Prop}
  {effect : σ → ι → Option σ} {items : List ι} {bytes before after text core rest : Bytes}

theorem more_close (nest : Nest) (first : Bool) (blanks : Blanks before) (rest : Bytes) :
    nest.more first (before ++ nest.closing :: rest) = .ok (false, nest.closing :: rest) := by
  have peeked : peek (before ++ nest.closing :: rest) = .ok (nest.closing, nest.closing :: rest) :=
    peek_token blanks (isBlank_closing nest)
  cases nest with
  | list => exact (bind_ok peeked).trans rfl
  | object => exact (bind_ok peeked).trans rfl

theorem more_first (opened : nest.Opened text core) (blanks : Blanks before) (rest : Bytes) :
    nest.more true (before ++ (text ++ rest)) = .ok (true, core ++ rest) := by
  cases opened with
  | @element b more solid unclosed =>
    refine (bind_ok (peek_token blanks solid)).trans ?_
    rw [if_neg unclosed]
    rfl
  | member =>
    exact (bind_ok (peek_token blanks (by decide))).trans rfl

theorem more_later (opened : nest.Opened text core) (tail : Blanks after) (blanks : Blanks before)
    (rest : Bytes) : nest.more false (after ++ 0x2c :: (before ++ (text ++ rest))) =
      .ok (true, core ++ rest) := by
  cases opened with
  | @element b more solid unclosed =>
    refine (bind_ok (peek_token tail (by decide))).trans ?_
    refine (bind_ok rfl).trans ?_
    refine (bind_ok (peek_token blanks solid)).trans ?_
    rw [if_neg unclosed]
    rfl
  | member core =>
    refine (bind_ok (peek_token tail (by decide))).trans ?_
    refine (bind_ok rfl).trans ?_
    have named : openName (before ++ (quote :: core ++ rest)) = .ok ((), core ++ rest) :=
      (bind_ok (peek_token blanks (by decide))).trans rfl
    exact (bind_ok named).trans rfl

def Nest.Reads (nest : Nest) (step : σ → Reader σ) (text : Bytes) (effect : σ → Option σ) : Prop :=
  ∃ core, nest.Opened text core ∧ ∀ state {rest : Bytes}, Ends rest →
    step state (core ++ rest) = answer (effect state) rest

theorem Listed.length_le (listed : Listed spells items bytes) :
    items.length ≤ bytes.length + 1 := by
  induction listed with
  | last blanks spelled tail => exact Nat.succ_le_succ (Nat.zero_le _)
  | more blanks spelled tail others ih =>
    simp only [List.length_cons, List.length_append]
    omega

theorem Listed.begins (listed : Listed spells items bytes) : ∃ item before text more,
    bytes = before ++ (text ++ more) ∧ Blanks before ∧ spells item text := by
  cases listed with
  | last blanks spelled | more blanks spelled => exact ⟨_, _, _, _, rfl, blanks, spelled⟩

/-- The comma is read together with what shows that the next item comes. -/
theorem more_next (opens : ∀ item text, spells item text → ∃ core, nest.Opened text core)
    (listed : Listed spells items bytes) (tail : Blanks after) (rest : Bytes) :
    nest.more false (after ++ 0x2c :: (bytes ++ rest)) = nest.more true (bytes ++ rest) := by
  obtain ⟨item, before, text, more, rfl, blanks, spelled⟩ := listed.begins
  obtain ⟨core, opened⟩ := opens item text spelled
  simp only [List.append_assoc]
  rw [more_later opened tail blanks, more_first opened blanks]

/-- Items are read one after the other until one of them is refused. The input is at the first item,
    or at the comma in front of it. -/
theorem fold_listed (reads : ∀ item text, spells item text →
      nest.Reads step text fun state => effect state item)
    (listed : Listed spells items bytes) {budget : Nat} (enough : items.length < budget)
    {first : Bool} {input rest : Bytes}
    (enters : nest.more first input = nest.more true (bytes ++ nest.closing :: rest)) (state : σ) :
    nest.fold step budget first state input =
      answer (items.foldlM effect state) (nest.closing :: rest) := by
  induction listed generalizing budget first input state with
  | @last item before text after blanks spelled tail =>
    obtain ⟨core, opened, steps⟩ := reads item text spelled
    obtain ⟨budget, rfl⟩ : ∃ n, budget = n + 2 := ⟨budget - 2, by simp at enough; omega⟩
    have read : step state (core ++ (after ++ nest.closing :: rest)) =
        answer (effect state item) (after ++ nest.closing :: rest) :=
      steps state (ends_token tail (ends_closing nest))
    simp only [List.append_assoc, more_first opened blanks] at enters
    rw [Nest.fold, bind_ok enters, if_pos rfl]
    cases done : effect state item with
    | none =>
      rw [done] at read
      rw [bind_error read]
      simp [done, answer]
    | some state' =>
      rw [done] at read
      rw [bind_ok read, Nest.fold, bind_ok (more_close nest false tail rest)]
      simp [done, answer]
      rfl
  | @more item items before text after later blanks spelled tail others ih =>
    obtain ⟨core, opened, steps⟩ := reads item text spelled
    obtain ⟨budget, rfl⟩ : ∃ n, budget = n + 1 := ⟨budget - 1, by omega⟩
    have read : step state (core ++ (after ++ 0x2c :: (later ++ nest.closing :: rest))) =
        answer (effect state item) (after ++ 0x2c :: (later ++ nest.closing :: rest)) :=
      steps state (ends_token tail ends_separator)
    simp only [List.append_assoc, List.cons_append, more_first opened blanks] at enters
    rw [Nest.fold, bind_ok enters, if_pos rfl]
    cases done : effect state item with
    | none =>
      rw [done] at read
      rw [bind_error read]
      simp [done, answer]
    | some state' =>
      rw [done] at read
      have opens : ∀ item text, spells item text → ∃ core, nest.Opened text core := by
        intro item text spelled
        obtain ⟨core, opened, _⟩ := reads item text spelled
        exact ⟨core, opened⟩
      have goes := more_next opens others tail (nest.closing :: rest)
      rw [bind_ok read, ih (by simp at enough; omega) goes]
      simp [done]

theorem fold_inside (reads : ∀ item text, spells item text →
      nest.Reads step text fun state => effect state item)
    (inside : Inside spells items bytes) (state : σ) (rest : Bytes) :
    nest.fold step ((bytes ++ nest.closing :: rest).length + 1) true state
        (bytes ++ nest.closing :: rest) =
      answer (items.foldlM effect state) (nest.closing :: rest) := by
  cases inside with
  | none blanks =>
    rw [Nest.fold, bind_ok (more_close nest true blanks rest)]
    rfl
  | some listed =>
    have few := listed.length_le
    apply fold_listed reads listed _ rfl
    simp only [List.length_append, List.length_cons]
    omega

theorem fold_enclosed (reads : ∀ item text, spells item text →
      nest.Reads step text fun state => effect state item)
    (inside : Inside spells items bytes) (state : σ) {next : σ → Reader α} {value? : σ → Option α}
    (goes : ∀ state, next state (nest.closing :: rest) = answer (value? state) rest) :
    (do
      advance
      let bytes ← remaining
      let state ← nest.fold step (bytes.length + 1) true state
      next state : Reader α) (nest.opening :: (bytes ++ nest.closing :: rest)) =
      answer ((items.foldlM effect state).bind value?) rest := by
  have folded := fold_inside reads inside state rest
  refine (bind_ok rfl).trans ((bind_ok rfl).trans ?_)
  cases reached : items.foldlM effect state with
  | none =>
    rw [reached] at folded
    exact bind_error folded
  | some final =>
    rw [reached] at folded
    exact (bind_ok folded).trans (goes final)

end Folding

section Lists

variable {ι κ : Type} {spells : ι → Bytes → Prop} {items : List ι} {text : Bytes}

def Starts (text : Bytes) : Prop := ∃ b more, text = b :: more ∧ isBlank b = false ∧ b ≠ 0x5d

theorem enclosed_starts {nest : Nest} (enclosed : Enclosed nest spells items text) :
    Starts text := by
  obtain ⟨bytes, _, rfl⟩ := enclosed
  exact ⟨nest.opening, _, rfl, by cases nest <;> decide, by cases nest <;> decide⟩

theorem foldlM_cons_reverse (value? : ι → Option α) (items : List ι) (sofar : List α) :
    (items.foldlM (fun sofar item => (value? item).map (· :: sofar)) sofar).map List.reverse =
      (items.mapM value?).map (sofar.reverse ++ ·) := by
  induction items generalizing sofar with
  | nil => simp
  | cons item items ih =>
    rw [List.foldlM_cons, List.mapM_cons]
    cases value? item with
    | none => rfl
    | some value =>
      refine (ih (value :: sofar)).trans ?_
      cases items.mapM value? <;> simp

theorem reverse_foldlM (value? : ι → Option α) (items : List ι) :
    (items.foldlM (fun sofar item => (value? item).map (· :: sofar)) []).bind
      (fun sofar => some sofar.reverse) = items.mapM value? := by
  have whole := foldlM_cons_reverse value? items []
  simp only [List.reverse_nil, List.nil_append, Option.map_id'] at whole
  rw [← whole, Option.map_eq_bind]
  rfl

theorem takes_list {element : Reader α} {value? : ι → Option α}
    (reads : ∀ item text, spells item text → Starts text ∧ Takes element text (value? item))
    (enclosed : Enclosed .list spells items text) :
    Takes (list element) text (items.mapM value?) := by
  intro before rest blanks _
  obtain ⟨bytes, inside, rfl⟩ := enclosed
  have steps : ∀ item text, spells item text → Nest.list.Reads
      (fun sofar => do let x ← element; pure (x :: sofar)) text
      fun sofar => (value? item).map (· :: sofar) := by
    intro item text spelled
    obtain ⟨⟨b, more, rfl, solid, unclosed⟩, takes⟩ := reads item text spelled
    exact ⟨_, .element solid unclosed, fun sofar rest ends =>
      bind_pure_answer (takes blanks_nil ends) (· :: sofar)⟩
  have closes : ∀ sofar : List α, (do closeList; pure sofar.reverse : Reader (List α))
      (0x5d :: rest) = answer (some sofar.reverse) rest := fun _ => rfl
  have folded := fold_enclosed steps inside [] closes
  rw [reverse_foldlM] at folded
  simp only [List.cons_append, List.append_assoc, List.nil_append, list, Nest.opening, Nest.closing]
  refine (bind_ok (peek_token blanks (by decide))).trans ?_
  simp only [if_true, foldElements_eq]
  exact folded

end Lists

def Named (name value text : Bytes) : Prop := ∃ before after, Blanks before ∧ Blanks after ∧
  text = quote :: (name ++ quote :: (before ++ 0x3a :: (after ++ value)))

def Labelled {ι : Type} (name : ι → String) (spells : ι → Bytes → Prop) (item : ι)
    (text : Bytes) : Prop :=
  ∃ label value, Content (name item).toList label ∧ spells item value ∧ Named label value text

abbrev Shape.Unknown {σ α : Type} (shape : Shape σ α) : Type :=
  { name : String // shape.members.find? (fun member => member.name = name) = none }

section Objects

variable {ι σ κ : Type} {spells : ι → Bytes → Prop} {items : List ι}
  {before after bytes text name value rest : Bytes}

theorem colon_blanks (blanks : Blanks before) (rest : Bytes) :
    colon (before ++ 0x3a :: rest) = .ok ((), rest) :=
  (bind_ok (peek_token blanks (by decide))).trans rfl

/-- `label` reads the name of an entry with its closing quote. -/
theorem takes_entries {label : Reader κ} {element : Reader α} {key : ι → κ}
    {value? : ι → Option α}
    (reads : ∀ item text, spells item text → ∃ name value, Named name value text ∧
      (∀ rest, label (name ++ quote :: rest) = .ok (key item, rest)) ∧
      Takes element value (value? item))
    (enclosed : Enclosed .object spells items text) :
    Takes (entries label element) text
      (items.mapM fun item => (value? item).map (Prod.mk (key item))) := by
  intro before rest blanks _
  obtain ⟨bytes, inside, rfl⟩ := enclosed
  have steps : ∀ item text, spells item text → Nest.object.Reads
      (fun sofar => do
        let k ← label
        colon
        let v ← element
        pure ((k, v) :: sofar)) text
      fun sofar => ((value? item).map (Prod.mk (key item))).map (· :: sofar) := by
    intro item text spelled
    obtain ⟨name, value, ⟨between, gap, colons, space, rfl⟩, labelled, takes⟩ :=
      reads item text spelled
    refine ⟨_, .member _, fun sofar rest ends => ?_⟩
    simp only [List.append_assoc, List.cons_append]
    refine (bind_ok (labelled _)).trans ((bind_ok (colon_blanks colons _)).trans ?_)
    rw [Option.map_map]
    exact bind_pure_answer (takes space ends) fun v => (key item, v) :: sofar
  have closes : ∀ sofar : List (κ × α),
      (do closeObject; pure sofar.reverse : Reader (List (κ × α))) (0x7d :: rest) =
        answer (some sofar.reverse) rest := fun _ => rfl
  have folded := fold_enclosed steps inside [] closes
  rw [reverse_foldlM] at folded
  simp only [List.cons_append, List.append_assoc, List.nil_append, entries, Nest.opening,
    Nest.closing]
  refine (bind_ok (peek_token blanks (by decide))).trans ?_
  simp only [if_true, foldMembers_eq]
  exact folded

def place {β : Type} (taken : Bool) (value? : Option β) (set : β → σ) : Option σ :=
  if taken then none else value?.map set

/-- What a member of this name with this value does to a draft: a known one fills its place, and an
    unknown one does nothing. -/
inductive Shape.Fills (shape : Shape σ α) (name : String) (value : Bytes) :
    (σ → Option σ) → Prop where
  | known {β : Type} {reader : Reader β} {value? : Option β} {set : σ → β → σ}
      (member : Member σ) :
      shape.members.find? (fun member => member.name = name) = some member →
      (∀ draft, member.read draft = do let x ← reader; pure (set draft x)) →
      Takes reader value value? →
      Fills shape name value fun draft => place (member.isGiven draft) value? (set draft)
  | unknown : shape.members.find? (fun member => member.name = name) = none → Value value →
      Fills shape name value some

theorem Shape.readMember_fills {shape : Shape σ α} {label : String} {effect : σ → Option σ}
    (fills : shape.Fills label value effect) (content : Content label.toList name)
    (blanks : Blanks before) (space : Blanks after) (ends : Ends rest) (draft : σ) :
    shape.readMember draft (name ++ quote :: (before ++ 0x3a :: (after ++ (value ++ rest)))) =
      answer (effect draft) rest := by
  have read := text_content content (before ++ 0x3a :: (after ++ (value ++ rest)))
  rw [String.ofList_toList] at read
  have colons := colon_blanks blanks (after ++ (value ++ rest))
  refine (bind_ok read).trans ?_
  cases fills with
  | known member found reads takes =>
    simp only [found]
    cases member.isGiven draft with
    | true => rfl
    | false =>
      refine (bind_ok colons).trans ?_
      rw [reads]
      exact bind_pure_answer (takes space ends) _
  | unknown found isValue =>
    simp only [found]
    exact (bind_ok colons).trans ((bind_ok (skipValue_value space isValue ends)).trans rfl)

theorem Shape.read_object {shape : Shape σ α} {effect : σ → ι → Option σ} {label : ι → String}
    (enclosed : Enclosed .object (Labelled label spells) items text)
    (fills : ∀ {item value}, spells item value →
      shape.Fills (label item) value fun draft => effect draft item) (blanks : Blanks before)
    (rest : Bytes) : shape.read (before ++ (text ++ rest)) =
      answer ((items.foldlM effect shape.blank).bind shape.finish?) rest := by
  obtain ⟨bytes, inside, rfl⟩ := enclosed
  have steps : ∀ item text, Labelled label spells item text →
      Nest.object.Reads shape.readMember text fun draft => effect draft item := by
    intro item text spelled
    obtain ⟨name, value, content, spelled, between, gap, colons, space, rfl⟩ := spelled
    refine ⟨_, .member _, fun draft rest ends => ?_⟩
    simp only [List.append_assoc, List.cons_append]
    exact Shape.readMember_fills (fills spelled) content colons space ends draft
  have closes : ∀ draft, (do
      let record ← shape.finish draft
      closeObject
      pure record : Reader α) (0x7d :: rest) = answer (shape.finish? draft) rest := by
    intro draft
    simp only [Shape.finish]
    cases shape.finish? draft with
    | none => rfl
    | some record => rfl
  have folded := fold_enclosed steps inside shape.blank closes
  simp only [List.cons_append, List.append_assoc, List.nil_append, Shape.read, Nest.opening,
    Nest.closing]
  refine (bind_ok (peek_token blanks (by decide))).trans ?_
  simp only [if_true, foldMembers_eq]
  exact folded

end Objects

section Options

variable {element : Reader α} {text : Bytes} {value? : Option α}

theorem takes_null : Takes (optional element) (ascii "null") (some none) := by
  intro before rest blanks _
  have head : ((before ++ 0x6e :: (ascii "ull" ++ rest)).dropWhile isBlank).head? = some 0x6e := by
    rw [dropWhile_token blanks (by decide)]
    rfl
  have same : ascii "null" = 0x6e :: ascii "ull" := rfl
  rw [same, List.cons_append]
  refine (bind_ok rfl).trans ?_
  rw [if_pos head]
  refine (bind_ok (peek_token blanks (by decide))).trans ((bind_ok rfl).trans ?_)
  exact (bind_ok (literal_append (ascii "ull") rest)).trans rfl

theorem takes_present {b : UInt8} {more : Bytes} (begins : text = b :: more)
    (solid : isBlank b = false) (filled : b ≠ 0x6e) (takes : Takes element text value?) :
    Takes (optional element) text (value?.map some) := by
  intro before rest blanks ends
  have head : ((before ++ (text ++ rest)).dropWhile isBlank).head? ≠ some 0x6e := by
    rw [begins, List.cons_append, dropWhile_token blanks solid]
    exact fun same => filled (Option.some.inj same)
  refine (bind_ok rfl).trans ?_
  rw [if_neg head]
  exact bind_pure_answer (takes blanks ends) some

end Options

section Whole

variable {reader : Reader α} {bytes rest : Bytes} {value? : Option α}

def verdict (value? : Option α) : Except Failure α :=
  match value? with
  | some value => .ok value
  | none => .error .mismatched

theorem readAll_answer (read : reader bytes = answer value? rest) (blanks : Blanks rest) :
    readAll reader bytes = verdict value? := by
  have blank : rest.dropWhile isBlank = [] := by
    have dropped := dropWhile_blanks blanks []
    rwa [List.append_nil] at dropped
  rw [readAll, read]
  cases value? with
  | none => rfl
  | some value =>
    simp only [answer, blank]
    rfl

theorem readAll_trailing (read : reader bytes = answer value? rest) (filled : ¬ Blanks rest) :
    ∃ failure, readAll reader bytes = .error failure := by
  have left : (rest.dropWhile isBlank).isEmpty = false := by
    rw [List.isEmpty_eq_false_iff]
    exact fun none => filled fun b member => List.dropWhile_eq_nil_iff.mp none b member
  rw [readAll, read]
  cases value? with
  | none => exact ⟨_, rfl⟩
  | some value => exact ⟨.malformed, by simp only [answer, left]; rfl⟩

end Whole

end QueueAssignment.Json
