import QueueAssignment.Proofs.Json.Records
import QueueAssignment.Proofs.Json.Tokens

/-!
Readers of typed values go no further and stop no earlier than skipping does.
-/
namespace QueueAssignment.Json

variable {α β σ κ : Type}

section Inversion

variable {reader : Reader α} {next : α → Reader β} {bytes mid rest : Bytes} {b : UInt8} {y : β}

theorem bind_inv (read : (reader >>= next) bytes = .ok (y, rest)) :
    ∃ x mid, reader bytes = .ok (x, mid) ∧ next x mid = .ok (y, rest) := by
  cases first : reader bytes with
  | error failure =>
    rw [bind_error first] at read
    cases read
  | ok pair =>
    obtain ⟨x, mid⟩ := pair
    rw [bind_ok first] at read
    exact ⟨x, mid, rfl, read⟩

theorem peek_inv (read : peek bytes = .ok (b, mid)) : ∃ before more,
    bytes = before ++ b :: more ∧ Blanks before ∧ isBlank b = false ∧ mid = b :: more := by
  induction bytes with
  | nil => cases read
  | cons c rest ih =>
    cases blank : isBlank c with
    | false =>
      rw [peek_cons blank] at read
      cases read
      exact ⟨[], rest, rfl, blanks_nil, blank, rfl⟩
    | true =>
      have front : Blanks [c] := fun d member => List.mem_singleton.mp member ▸ blank
      have same := peek_blanks front rest
      rw [List.singleton_append] at same
      obtain ⟨before, more, rfl, blanks, solid, rfl⟩ := ih (same ▸ read)
      refine ⟨c :: before, more, rfl, fun d member => ?_, solid, rfl⟩
      rcases List.mem_cons.mp member with rfl | member
      · exact blank
      · exact blanks d member

theorem token_inv {token : UInt8} (read : (do
      let b ← peek
      if b = token then advance else throw .malformed : Reader Unit) bytes = .ok ((), rest)) :
    ∃ before, bytes = before ++ token :: rest ∧ Blanks before := by
  obtain ⟨b, mid, seen, read⟩ := bind_inv read
  obtain ⟨before, more, rfl, blanks, solid, rfl⟩ := peek_inv seen
  split at read
  · rename_i same
    cases read
    exact ⟨before, same ▸ rfl, blanks⟩
  · cases read

def Fails (reader : Reader α) : Prop := ∀ bytes x rest, reader bytes ≠ .ok (x, rest)

theorem fails_throw (failure : Failure) : Fails (throw failure : Reader α) :=
  fun _ _ _ read => by cases read

theorem fails_bind (fails : ∀ x, Fails (next x)) : Fails (reader >>= next) := by
  intro bytes y rest read
  obtain ⟨x, mid, _, later⟩ := bind_inv read
  exact fails x mid y rest later

theorem fails_refuse : Fails (refuse : Reader α) := by
  refine fails_bind fun b => ?_
  dsimp only
  split
  · exact fails_bind fun _ => fails_bind fun _ => fails_throw _
  split
  · exact fails_bind fun _ => fails_bind fun _ => fails_throw _
  split
  · exact fails_bind fun _ => fails_bind fun _ => fails_throw _
  split
  · exact fails_bind fun _ => fails_bind fun _ => fails_throw _
  split
  · exact fails_bind fun _ => fails_throw _
  split
  · exact fails_bind fun _ => fails_bind fun _ => fails_throw _
  split
  · exact fails_bind fun _ => fails_throw _
  · exact fails_throw _

end Inversion

section Skipping

variable {bound more : Nat} {expected final : Expected} {open_ inner outer : List Nest}
  {nest : Nest} {bytes rest before : Bytes} {b : UInt8}

theorem skipLoop_blanks_inside (blanks : Blanks before) (budget : Nat) (expected : Expected)
    (nest : Nest) (outer : List Nest) (bytes : Bytes) :
    skipLoop budget expected (nest :: outer) (before ++ bytes) =
      skipLoop budget expected (nest :: outer) bytes := by
  cases budget with
  | zero => rfl
  | succ budget => cases expected <;> simp only [skipLoop, dropWhile_blanks blanks]

def Reaches (expected : Expected) (open_ : List Nest) (bytes : Bytes) (final : Expected)
    (inner : List Nest) (rest : Bytes) : Prop :=
  ∃ bound, Skips bound expected open_ bytes final inner rest

theorem Reaches.trans {middle : Expected} {between : List Nest} {left : Bytes}
    (first : Reaches expected open_ bytes middle between left)
    (second : Reaches middle between left final inner rest) :
    Reaches expected open_ bytes final inner rest := by
  obtain ⟨m, first⟩ := first
  obtain ⟨n, second⟩ := second
  exact ⟨m + n, first.trans second⟩

theorem Reaches.refl : Reaches expected open_ bytes expected open_ bytes :=
  ⟨0, 0, Nat.le_refl 0, fun budget => by rw [Nat.zero_add]⟩

theorem Reaches.strip (blanks : Blanks before) :
    Reaches expected (nest :: outer) (before ++ bytes) expected (nest :: outer) bytes :=
  ⟨0, 0, Nat.le_refl 0, fun budget => by rw [Nat.zero_add, skipLoop_blanks_inside blanks]⟩

theorem ite_imp {τ : Type} {c : Prop} [Decidable c] {first second other another x y : τ}
    (pos : first = x → other = y) (neg : second = x → another = y)
    (same : (if c then first else second) = x) : (if c then other else another) = y := by
  split at same
  · rename_i holds
    rw [if_pos holds]
    exact pos same
  · rename_i fails
    rw [if_neg fails]
    exact neg same

/-- Which nests are open outside of a value makes no difference to how it starts. -/
theorem skipStart_append (outer : List Nest)
    (started : skipStart inner b bytes = .ok (final, open_, rest)) :
    skipStart (inner ++ outer) b bytes = .ok (final, open_ ++ outer, rest) := by
  simp only [skipStart] at started ⊢
  refine ite_imp ?null (ite_imp ?yes (ite_imp ?no (ite_imp ?negative (ite_imp ?number
    (ite_imp ?text (ite_imp ?list (ite_imp ?object ?other))))))) started
  case null | yes | no | negative | number | text =>
    intro same
    split at same
    · cases same
      rfl
    · cases same
  case list | object =>
    intro same
    cases same
    rfl
  case other =>
    intro same
    cases same

theorem dropWhile_inv {more : Bytes} (left : bytes.dropWhile isBlank = b :: more) :
    ∃ before, bytes = before ++ b :: more ∧ Blanks before ∧ isBlank b = false := by
  have seen : peek bytes = .ok (b, b :: more) := by rw [peek, left]
  obtain ⟨before, after, same, blanks, solid, rest⟩ := peek_inv seen
  cases rest
  exact ⟨before, same, blanks, solid⟩

theorem reaches_name {core : Bytes} (named : skipName quote core = .ok ((), rest)) :
    Reaches .name open_ (quote :: core) .value open_ rest := by
  refine ⟨1, .one fun budget => ?_⟩
  simp only [skipLoop, List.dropWhile_cons_of_neg (show ¬ isBlank quote = true by decide), named]

theorem skipLoop_nil {budget : Nat} (left : bytes.dropWhile isBlank = [])
    (more : ¬ (expected = .next ∧ inner = [])) :
    skipLoop (budget + 1) expected inner bytes = .error .truncated := by
  cases expected with
  | value | name => simp only [skipLoop, left]
  | first => cases inner <;> simp only [skipLoop, left]
  | next =>
    cases inner with
    | nil => exact absurd ⟨rfl, rfl⟩ more
    | cons nest inner => simp only [skipLoop, left]

theorem skipLoop_step {budget : Nat} (more : ¬ (expected = .next ∧ inner = []))
    (skipped : skipLoop (budget + 1) expected inner bytes = .ok ((), rest)) :
    ∃ middle between left, skipLoop budget middle between left = .ok ((), rest) ∧
      ∀ outer, Reaches expected (inner ++ outer) bytes middle (between ++ outer) left := by
  cases left : bytes.dropWhile isBlank with
  | nil =>
    rw [skipLoop_nil left more] at skipped
    cases skipped
  | cons b text =>
    obtain ⟨before, rfl, blanks, solid⟩ := dropWhile_inv left
    cases expected with
    | value =>
      simp only [skipLoop, left] at skipped
      split at skipped
      · rename_i started
        refine ⟨_, _, _, skipped, fun outer => ⟨1, ?_⟩⟩
        exact (skips_start solid (skipStart_append outer started)).blanks blanks (by decide)
      · cases skipped
    | name =>
      simp only [skipLoop, left] at skipped
      split at skipped
      · rename_i named
        by_cases quoted : b = quote
        · subst quoted
          refine ⟨_, _, _, skipped, fun outer => ?_⟩
          have first : Reaches .name (inner ++ outer) (quote :: text) .value (inner ++ outer) _ :=
            reaches_name named
          obtain ⟨n, first⟩ := first
          exact ⟨n, first.blanks blanks (by decide)⟩
        · rw [skipName, if_pos quoted] at named
          cases named
      · cases skipped
    | first =>
      cases inner with
      | nil =>
        simp only [skipLoop, left] at skipped
        cases skipped
      | cons nest inner =>
        simp only [skipLoop, left] at skipped
        split at skipped
        · rename_i closed
          subst closed
          exact ⟨_, _, _, skipped, fun outer => ⟨1, skips_empty blanks text⟩⟩
        · rename_i filled
          refine ⟨_, _, _, skipped, fun outer => ?_⟩
          exact Reaches.trans ⟨1, skips_first blanks solid filled text⟩ (.strip blanks)
    | next =>
      cases inner with
      | nil => exact absurd ⟨rfl, rfl⟩ more
      | cons nest inner =>
        simp only [skipLoop, left] at skipped
        split at skipped
        · rename_i comma
          subst comma
          exact ⟨_, _, _, skipped, fun outer => ⟨1, skips_comma blanks text⟩⟩
        · split at skipped
          · rename_i closed
            subst closed
            exact ⟨_, _, _, skipped, fun outer => ⟨1, skips_close blanks text⟩⟩
          · cases skipped

/-- What is skipped on its own is skipped inside of other nests too. -/
theorem reaches_of_skipLoop {budget : Nat}
    (skipped : skipLoop budget expected inner bytes = .ok ((), rest)) (outer : List Nest) :
    Reaches expected (inner ++ outer) bytes .next outer rest := by
  induction budget generalizing expected inner bytes with
  | zero => cases skipped
  | succ budget ih =>
    by_cases ended : expected = .next ∧ inner = []
    · obtain ⟨rfl, rfl⟩ := ended
      cases skipped
      exact .refl
    · obtain ⟨middle, between, left, later, first⟩ := skipLoop_step ended skipped
      exact (first outer).trans (ih later)

end Skipping

def Agrees (reader : Reader α) : Prop := ∀ ⦃bytes x rest⦄, reader bytes = .ok (x, rest) →
  ∀ open_, Reaches .value open_ bytes .next open_ rest

section Readers

variable {reader : Reader α} {bytes before mid rest : Bytes} {b : UInt8} {open_ outer : List Nest}
  {nest : Nest}

theorem advance_bind (next : Unit → Reader α) (b : UInt8) (more : Bytes) :
    (advance >>= next) (b :: more) = next () more := bind_ok rfl

theorem agrees_peek {next : UInt8 → Reader α} (goes : ∀ {b more x rest}, isBlank b = false →
      next b (b :: more) = .ok (x, rest) →
      ∀ open_, Reaches .value open_ (b :: more) .next open_ rest) : Agrees (peek >>= next) := by
  intro bytes x rest read open_
  obtain ⟨b, mid, seen, read⟩ := bind_inv read
  obtain ⟨before, more, rfl, blanks, solid, rfl⟩ := peek_inv seen
  obtain ⟨n, skips⟩ := goes solid read open_
  exact ⟨n, skips.blanks blanks (by decide)⟩

theorem Agrees.bind {next : α → Reader β} (agrees : Agrees reader)
    (stays : ∀ {x mid y rest}, next x mid = .ok (y, rest) → rest = mid) :
    Agrees (reader >>= next) := by
  intro bytes y rest read open_
  obtain ⟨x, mid, first, later⟩ := bind_inv read
  cases stays later
  exact agrees first open_

theorem Agrees.map (agrees : Agrees reader) (f : α → β) :
    Agrees (reader >>= fun x => pure (f x)) :=
  agrees.bind fun later => by cases later; rfl

theorem agrees_string : Agrees string := by
  refine agrees_peek fun {b more x rest} solid read open_ => ?_
  split at read
  · rename_i quoted
    subst quoted
    rw [advance_bind] at read
    have skipped := skipText_of_text read
    refine ⟨1, skips_start solid ?_⟩
    simp only [skipStart, skipped]
    rfl
  · exact absurd read (fails_refuse _ _ _)

theorem agrees_anyNumber : Agrees anyNumber := by
  refine agrees_peek fun {b more x rest} solid read open_ => ?_
  split at read
  · rename_i sign
    subst sign
    rw [advance_bind] at read
    have skipped := skipNumber_of_number read
    refine ⟨1, skips_start solid ?_⟩
    simp only [skipStart, skipped]
    rfl
  · split at read
    · rename_i digit
      have skipped := skipNumber_of_number read
      obtain ⟨_, _, letters, _⟩ := digit_solid digit
      refine ⟨1, skips_start solid ?_⟩
      simp only [skipStart, if_neg letters.1, if_neg letters.2.1, if_neg letters.2.2.1,
        if_neg letters.2.2.2, digit, if_true, skipped]
    · exact absurd read (fails_refuse _ _ _)

theorem plain_anyNumber {n : Number} {more : Bytes} (begins : isDigit b = true ∨ b = 0x2d)
    (read : anyNumber (b :: more) = .ok (n, rest)) : Plain (b :: more) rest := by
  have solid : isBlank b = false := by
    rcases begins with digit | rfl
    · exact (digit_solid digit).1
    · decide
  rw [anyNumber, bind_ok (peek_cons solid)] at read
  split at read
  · rename_i sign
    subst sign
    rw [advance_bind] at read
    exact (plain_skipNumber (skipNumber_of_number read)).cons ⟨by decide, by decide, by decide⟩
  · rename_i unsigned
    rcases begins with digit | sign
    · rw [if_pos digit] at read
      exact plain_skipNumber (skipNumber_of_number read)
    · exact absurd sign unsigned

theorem natural_inv {limit n : Nat} (read : natural limit bytes = .ok (n, rest)) :
    anyNumber bytes = .ok (.natural n, rest) := by
  obtain ⟨number, mid, found, later⟩ := bind_inv read
  cases number with
  | natural n =>
    simp only at later
    split at later <;> cases later
    exact found
  | negative | inexact => cases later

theorem agrees_natural (limit : Nat) : Agrees (natural limit) := by
  refine agrees_anyNumber.bind fun {number mid n rest} later => ?_
  cases number with
  | natural n =>
    simp only at later
    split at later <;> cases later
    rfl
  | negative | inexact => cases later

theorem agrees_word32 : Agrees word32 := (agrees_natural _).map _

theorem agrees_skipValue : Agrees skipValue :=
  fun _ _ _ read open_ => reaches_of_skipLoop read open_

def expectedAt (first : Bool) : Expected := if first then .first else .next

/-- What stands next in a nest: an item, which skipping comes to as well, or the closing. -/
def Finds (nest : Nest) (first : Bool) (outer : List Nest) (bytes mid : Bytes)
    (goes : Bool) : Prop :=
  if goes then ∃ text, nest.Opened text mid ∧
    Reaches (expectedAt first) (nest :: outer) bytes nest.member (nest :: outer) text
  else ∃ before after, bytes = before ++ nest.closing :: after ∧ Blanks before ∧
    mid = nest.closing :: after

theorem finds_element {first goes : Bool} (read : Nest.list.more first bytes = .ok (goes, mid))
    (outer : List Nest) : Finds .list first outer bytes mid goes := by
  obtain ⟨b, seen, peeked, read⟩ := bind_inv read
  obtain ⟨before, more, rfl, blanks, solid, rfl⟩ := peek_inv peeked
  split at read
  · rename_i closed
    cases read
    exact ⟨before, more, closed ▸ rfl, blanks, closed ▸ rfl⟩
  · rename_i filled
    split at read
    · rename_i opens
      cases read
      refine ⟨_, .element solid filled, ?_⟩
      have filled : b ≠ Nest.list.closing := filled
      subst opens
      exact Reaches.trans ⟨1, skips_first blanks solid filled more⟩ (.strip blanks)
    · rename_i later
      split at read
      · rename_i comma
        subst comma
        rw [advance_bind] at read
        obtain ⟨c, seen, peeked, read⟩ := bind_inv read
        obtain ⟨space, rest, rfl, spaces, solid, rfl⟩ := peek_inv peeked
        split at read
        · cases read
        · rename_i filled
          cases read
          refine ⟨_, .element solid filled, ?_⟩
          rw [expectedAt, if_neg later]
          exact Reaches.trans ⟨1, skips_comma blanks _⟩ (.strip spaces)
      · cases read

theorem finds_member {first goes : Bool} (read : Nest.object.more first bytes = .ok (goes, mid))
    (outer : List Nest) : Finds .object first outer bytes mid goes := by
  obtain ⟨b, seen, peeked, read⟩ := bind_inv read
  obtain ⟨before, more, rfl, blanks, solid, rfl⟩ := peek_inv peeked
  split at read
  · rename_i closed
    cases read
    exact ⟨before, more, closed ▸ rfl, blanks, closed ▸ rfl⟩
  · rename_i filled
    split at read
    · rename_i opens
      obtain ⟨⟨⟩, mid, named, read⟩ := bind_inv read
      cases read
      obtain ⟨space, same, spaces⟩ := token_inv named
      have filled : b ≠ Nest.object.closing := filled
      subst opens
      refine ⟨_, .member _, Reaches.trans ⟨1, skips_first blanks solid filled more⟩ ?_⟩
      refine (Reaches.strip blanks).trans ?_
      rw [same]
      exact .strip spaces
    · rename_i later
      split at read
      · rename_i comma
        subst comma
        rw [advance_bind] at read
        obtain ⟨⟨⟩, mid, named, read⟩ := bind_inv read
        cases read
        obtain ⟨space, rfl, spaces⟩ := token_inv named
        refine ⟨_, .member _, ?_⟩
        rw [expectedAt, if_neg later]
        exact Reaches.trans ⟨1, skips_comma blanks _⟩ (.strip spaces)
      · cases read

theorem more_inv {first goes : Bool} (read : nest.more first bytes = .ok (goes, mid))
    (outer : List Nest) : Finds nest first outer bytes mid goes := by
  cases nest with
  | list => exact finds_element read outer
  | object => exact finds_member read outer

theorem reaches_closing {first : Bool} (blanks : Blanks before) (rest : Bytes) :
    Reaches (expectedAt first) (nest :: outer) (before ++ nest.closing :: rest) .next outer
      rest := by
  cases first with
  | true => exact ⟨1, skips_empty blanks rest⟩
  | false => exact ⟨1, skips_close blanks rest⟩

theorem fold_agrees {step : σ → Reader σ}
    (steps : ∀ {state core x rest text}, nest.Opened text core → step state core = .ok (x, rest) →
      ∀ outer, Reaches nest.member (nest :: outer) text .next (nest :: outer) rest)
    {budget : Nat} {first : Bool} {state final : σ}
    (read : nest.fold step budget first state bytes = .ok (final, mid)) (outer : List Nest) :
    ∃ rest, mid = nest.closing :: rest ∧
      Reaches (expectedAt first) (nest :: outer) bytes .next outer rest := by
  induction budget generalizing first state bytes with
  | zero => cases read
  | succ budget ih =>
    obtain ⟨goes, seen, found, read⟩ := bind_inv read
    have comes := more_inv found outer
    cases goes with
    | true =>
      obtain ⟨text, opened, reaches⟩ := comes
      obtain ⟨next, left, stepped, later⟩ := bind_inv read
      obtain ⟨rest, same, others⟩ := ih later
      exact ⟨rest, same, reaches.trans ((steps opened stepped outer).trans others)⟩
    | false =>
      obtain ⟨before, rest, rfl, blanks, rfl⟩ := comes
      cases read
      exact ⟨rest, rfl, reaches_closing blanks rest⟩

theorem fold_agrees_opening {step : σ → Reader σ} {next : σ → Reader α} {x : α} {more : Bytes}
    (steps : ∀ {state core x rest text}, nest.Opened text core → step state core = .ok (x, rest) →
      ∀ outer, Reaches nest.member (nest :: outer) text .next (nest :: outer) rest)
    (closes : ∀ {final after x rest}, next final (nest.closing :: after) = .ok (x, rest) →
      rest = after)
    (state : σ) (read : (do
      advance
      let bytes ← remaining
      let state ← nest.fold step (bytes.length + 1) true state
      next state : Reader α) (nest.opening :: more) = .ok (x, rest)) (open_ : List Nest) :
    Reaches .value open_ (nest.opening :: more) .next open_ rest := by
  rw [advance_bind] at read
  obtain ⟨_, left, seen, read⟩ := bind_inv read
  cases seen
  obtain ⟨final, mid, folded, read⟩ := bind_inv read
  obtain ⟨after, rfl, reaches⟩ := fold_agrees steps folded open_
  cases closes read
  refine Reaches.trans ?_ reaches
  cases nest with
  | list => exact ⟨1, skips_openList open_ more⟩
  | object => exact ⟨1, skips_openObject open_ more⟩

theorem agrees_list {element : Reader α} (agrees : Agrees element) : Agrees (list element) := by
  refine agrees_peek fun {b more x rest} solid read open_ => ?_
  split at read
  · rename_i opens
    subst opens
    simp only [foldElements_eq] at read
    refine fold_agrees_opening ?_ ?_ [] read open_
    · intro sofar core x rest text opened stepped outer
      cases opened
      exact agrees.map (· :: sofar) stepped _
    · intro final after x rest closed
      cases closed
      rfl
  · exact absurd read (fails_refuse _ _ _)

theorem reaches_member {core after : Bytes} (skipped : skipText core = .ok ((), mid))
    (colons : colon mid = .ok ((), after)) :
    Reaches .name open_ (quote :: core) .value open_ after := by
  obtain ⟨before, rfl, blanks⟩ := token_inv colons
  refine reaches_name ?_
  simp [skipName, skipped, dropWhile_token blanks (show isBlank 0x3a = false by decide)]

theorem agrees_entries {label : Reader κ} {element : Reader α}
    (labels : ∀ {core k mid}, label core = .ok (k, mid) → skipText core = .ok ((), mid))
    (agrees : Agrees element) : Agrees (entries label element) := by
  refine agrees_peek fun {b more x rest} solid read open_ => ?_
  split at read
  · rename_i opens
    subst opens
    simp only [foldMembers_eq] at read
    refine fold_agrees_opening ?_ ?_ [] read open_
    · intro sofar core x rest text opened stepped outer
      cases opened
      obtain ⟨k, mid, labelled, stepped⟩ := bind_inv stepped
      obtain ⟨⟨⟩, after, colons, stepped⟩ := bind_inv stepped
      refine (reaches_member (labels labelled) colons).trans ?_
      exact agrees.map (fun v => (k, v) :: sofar) stepped _
    · intro final after x rest closed
      cases closed
      rfl
  · exact absurd read (fails_refuse _ _ _)

section Shapes

variable {shape : Shape σ α}

theorem reaches_readMember (agrees : ∀ member ∈ shape.members, ∀ draft, Agrees (member.read draft))
    {draft next : σ} {core : Bytes} (read : shape.readMember draft core = .ok (next, rest)) :
    Reaches .name open_ (quote :: core) .next open_ rest := by
  obtain ⟨name, mid, named, read⟩ := bind_inv read
  have skipped := skipText_of_text named
  cases found : shape.members.find? fun member => member.name = name with
  | some member =>
    simp only [found] at read
    split at read
    · cases read
    · obtain ⟨⟨⟩, after, colons, read⟩ := bind_inv read
      refine (reaches_member skipped colons).trans ?_
      exact agrees member (List.mem_of_find?_eq_some found) draft read _
  | none =>
    simp only [found] at read
    obtain ⟨⟨⟩, after, colons, read⟩ := bind_inv read
    refine (reaches_member skipped colons).trans ?_
    exact agrees_skipValue.map (fun _ => draft) read _

theorem reaches_readElements {members : List (Member σ)}
    (agrees : ∀ member ∈ members, ∀ draft, Agrees (member.read draft)) {first : Bool}
    {draft next : σ} (read : Shape.readElements first members draft bytes = .ok (next, mid))
    (outer : List Nest) :
    ∃ last, Reaches (expectedAt first) (.list :: outer) bytes (expectedAt last) (.list :: outer)
      mid := by
  induction members generalizing first draft bytes with
  | nil =>
    cases read
    exact ⟨first, .refl⟩
  | cons member members ih =>
    have others : ∀ m ∈ members, ∀ draft, Agrees (m.read draft) :=
      fun m listed => agrees m (List.mem_cons_of_mem member listed)
    obtain ⟨goes, seen, found, read⟩ := bind_inv read
    have comes := more_inv (show Nest.list.more first bytes = _ from found) outer
    cases goes with
    | true =>
      obtain ⟨text, opened, reaches⟩ := comes
      cases opened
      obtain ⟨filled, left, stepped, later⟩ := bind_inv read
      obtain ⟨last, rest⟩ := ih others later
      have step := agrees member List.mem_cons_self draft stepped (.list :: outer)
      exact ⟨last, reaches.trans (step.trans rest)⟩
    | false =>
      obtain ⟨before, rest, rfl, blanks, rfl⟩ := comes
      simp only [Bool.false_eq_true, if_false] at read
      split at read
      · obtain ⟨last, rest⟩ := ih others read
        exact ⟨last, (Reaches.strip blanks).trans rest⟩
      · cases read

theorem finish_inv {draft : σ} {record : α} (read : shape.finish draft bytes = .ok (record, rest)) :
    shape.finish? draft = some record ∧ rest = bytes := by
  cases made : shape.finish? draft with
  | none =>
    simp only [Shape.finish, made] at read
    cases read
  | some found =>
    simp only [Shape.finish, made] at read
    cases read
    exact ⟨rfl, rfl⟩

theorem agrees_shape (agrees : ∀ member ∈ shape.members, ∀ draft, Agrees (member.read draft)) :
    Agrees shape.read := by
  refine agrees_peek fun {b more x rest} solid read open_ => ?_
  split at read
  · rename_i opens
    subst opens
    simp only [foldMembers_eq] at read
    refine fold_agrees_opening ?_ ?_ shape.blank read open_
    · intro draft core x rest text opened stepped outer
      cases opened
      exact reaches_readMember agrees stepped
    · intro draft after x rest closed
      obtain ⟨record, left, finished, closed⟩ := bind_inv closed
      obtain ⟨_, rfl⟩ := finish_inv finished
      cases closed
      rfl
  · split at read
    · rename_i opens
      subst opens
      rw [advance_bind] at read
      obtain ⟨draft, mid, elements, finishes⟩ := bind_inv read
      obtain ⟨last, reaches⟩ := reaches_readElements agrees elements open_
      obtain ⟨record, left, finished, closes⟩ := bind_inv finishes
      obtain ⟨_, rfl⟩ := finish_inv finished
      obtain ⟨⟨⟩, after, closed, ends⟩ := bind_inv closes
      cases ends
      obtain ⟨before, rfl, blanks⟩ := token_inv closed
      exact Reaches.trans ⟨1, skips_openList open_ more⟩
        (reaches.trans (reaches_closing blanks rest))
    · exact absurd read (fails_refuse _ _ _)

end Shapes

end Readers

end QueueAssignment.Json
