import QueueAssignment.Proofs.Json.Agreement

/-!
Objects and lists of any values at all: what is known where a typed reader takes one of them.
-/
namespace QueueAssignment.Json

variable {α β σ ι : Type}

theorem Agrees.exact {reader : Reader α} {before value rest left : Bytes} {x : α}
    (agrees : Agrees reader) (isValue : Value value) (blanks : Blanks before) (ends : Ends rest)
    (read : reader (before ++ (value ++ rest)) = .ok (x, left)) : left = rest := by
  obtain ⟨_, m, _, takes⟩ := agrees read []
  obtain ⟨n, _, skips⟩ := (isValue.skips ends []).blanks blanks (by decide)
  have first : skipLoop (m + (n + 1)) .value [] (before ++ (value ++ rest)) = .ok ((), left) :=
    takes (n + 1)
  have second : skipLoop (n + (m + 1)) .value [] (before ++ (value ++ rest)) = .ok ((), rest) :=
    skips (m + 1)
  have same : m + (n + 1) = n + (m + 1) := by omega
  rw [same, second] at first
  cases first
  rfl

/-- A run over items, each of which may do what `effect` tells. -/
inductive Chain (effect : σ → ι → σ → Prop) : σ → List ι → σ → Prop where
  | nil {state : σ} : Chain effect state [] state
  | cons {state next final : σ} {item : ι} {items : List ι} : effect state item next →
      Chain effect next items final → Chain effect state (item :: items) final

section Runs

variable {nest : Nest} {step : σ → Reader σ} {spells : ι → Bytes → Prop}
  {effect : σ → ι → σ → Prop} {items : List ι} {bytes rest mid : Bytes} {state final : σ}

def Does (nest : Nest) (step : σ → Reader σ) (text : Bytes) (effect : σ → σ → Prop) : Prop :=
  ∃ core, nest.Opened text core ∧ ∀ ⦃state next rest left⦄, Ends rest →
    step state (core ++ rest) = .ok (next, left) → left = rest ∧ effect state next

theorem chain_of_fold (does : ∀ item text, spells item text →
      Does nest step text fun state next => effect state item next)
    (listed : Listed spells items bytes) {budget : Nat} {first : Bool} {input : Bytes}
    (enters : nest.more first input = nest.more true (bytes ++ nest.closing :: rest))
    (read : nest.fold step budget first state input = .ok (final, mid)) :
    mid = nest.closing :: rest ∧ Chain effect state items final := by
  induction listed generalizing budget first input state with
  | @last item before text after blanks spelled tail =>
    obtain ⟨core, opened, steps⟩ := does item text spelled
    simp only [List.append_assoc, more_first opened blanks] at enters
    cases budget with
    | zero => cases read
    | succ budget =>
      rw [Nest.fold, bind_ok enters, if_pos rfl] at read
      obtain ⟨next, left, stepped, later⟩ := bind_inv read
      obtain ⟨rfl, did⟩ := steps (ends_token tail (ends_closing nest)) stepped
      cases budget with
      | zero => cases later
      | succ budget =>
        rw [Nest.fold, bind_ok (more_close nest false tail rest)] at later
        cases later
        exact ⟨rfl, .cons did .nil⟩
  | @more item items before text after later blanks spelled tail others ih =>
    obtain ⟨core, opened, steps⟩ := does item text spelled
    simp only [List.append_assoc, List.cons_append, more_first opened blanks] at enters
    cases budget with
    | zero => cases read
    | succ budget =>
      rw [Nest.fold, bind_ok enters, if_pos rfl] at read
      obtain ⟨next, left, stepped, rests⟩ := bind_inv read
      obtain ⟨rfl, did⟩ := steps (ends_token tail ends_separator) stepped
      have opens : ∀ item text, spells item text → ∃ core, nest.Opened text core := by
        intro item text spelled
        obtain ⟨core, opened, _⟩ := does item text spelled
        exact ⟨core, opened⟩
      have goes := more_next opens others tail (nest.closing :: rest)
      obtain ⟨same, run⟩ := ih goes rests
      exact ⟨same, .cons did run⟩

theorem Chain.mem (chain : Chain effect state items final) {item : ι} (listed : item ∈ items) :
    ∃ before after, effect before item after := by
  induction chain with
  | nil => cases listed
  | cons did _ ih =>
    cases listed with
    | head => exact ⟨_, _, did⟩
    | tail _ later => exact ih later

theorem chain_of_enclosed (does : ∀ item text, spells item text →
      Does nest step text fun state next => effect state item next)
    (inside : Inside spells items bytes) {next : σ → Reader α} {x : α} {left : Bytes}
    (read : (do
      advance
      let bytes ← remaining
      let state ← nest.fold step (bytes.length + 1) true state
      next state : Reader α) (nest.opening :: (bytes ++ nest.closing :: rest)) = .ok (x, left)) :
    ∃ final, Chain effect state items final ∧
      next final (nest.closing :: rest) = .ok (x, left) := by
  rw [advance_bind] at read
  obtain ⟨_, seen, counted, read⟩ := bind_inv read
  cases counted
  obtain ⟨final, mid, folded, later⟩ := bind_inv read
  cases inside with
  | none blanks =>
    rw [Nest.fold, bind_ok (more_close nest true blanks rest)] at folded
    cases folded
    exact ⟨_, .nil, later⟩
  | some listed =>
    obtain ⟨rfl, chain⟩ := chain_of_fold does listed rfl folded
    exact ⟨final, chain, later⟩

end Runs

structure Entry where
  name : String
  value : Bytes
  isValue : Value value

def Entries (entries : List Entry) : Bytes → Prop :=
  Enclosed .object (Labelled Entry.name fun entry text => text = entry.value) entries

def Items (values : List { value : Bytes // Value value }) : Bytes → Prop :=
  Enclosed .list (fun value text => text = value.val) values

theorem unread_of_content {text : List Char} {bytes : Bytes} (content : Content text bytes) :
    Unread bytes := by
  induction content with
  | nil => exact .nil
  | plain visible unquoted unescaped _ ih =>
    exact ih.prepend (unescaped_utf8EncodeChar visible unquoted unescaped)
  | escape found _ ih => exact .escape (Option.isSome_of_mem found) ih
  | unit found _ _ _ ih => exact .unit (Option.isSome_of_mem found) ih
  | pair leads _ trails _ _ ih =>
    exact .unit (Option.isSome_of_mem leads) (.unit (Option.isSome_of_mem trails) ih)

theorem Items.isValue {values : List { value : Bytes // Value value }} {text : Bytes}
    (spelled : Items values text) : Value text := by
  obtain ⟨bytes, inside, rfl⟩ := spelled
  cases inside with
  | none blanks => exact .emptyList blanks
  | some listed =>
    refine .list ?_
    induction listed with
    | @last value _ _ _ before same after => exact same ▸ .last before value.property after
    | @more value _ _ _ _ _ before same after _ ih =>
      exact same ▸ .more before value.property after ih

theorem Entries.isValue {entries : List Entry} {text : Bytes} (spelled : Entries entries text) :
    Value text := by
  obtain ⟨bytes, inside, rfl⟩ := spelled
  cases inside with
  | none blanks => exact .emptyObject blanks
  | some listed =>
    refine .object ?_
    induction listed with
    | @last entry _ _ _ before member after =>
      obtain ⟨name, _, content, rfl, between, gap, colons, space, rfl⟩ := member
      simpa using Members.last before (unread_of_content content) colons space entry.isValue after
    | @more entry _ _ _ _ _ before member after _ ih =>
      obtain ⟨name, _, content, rfl, between, gap, colons, space, rfl⟩ := member
      simpa using
        Members.more before (unread_of_content content) colons space entry.isValue after ih

section Texts

variable {before text rest left : Bytes}

theorem items_of_list {element : Reader α} {values : List { value : Bytes // Value value }}
    {xs : List α} (agrees : Agrees element) (spelled : Items values text) (blanks : Blanks before)
    (read : list element (before ++ (text ++ rest)) = .ok (xs, left)) :
    ∀ value ∈ values, ∃ after x, Ends after ∧ element (value.val ++ after) = .ok (x, after) := by
  obtain ⟨bytes, inside, rfl⟩ := spelled
  have does : ∀ (value : { value : Bytes // Value value }) text, text = value.val →
      Does .list (fun sofar => do let x ← element; pure (x :: sofar)) text fun _ _ =>
        ∃ after x, Ends after ∧ element (value.val ++ after) = .ok (x, after) := by
    rintro value _ rfl
    obtain ⟨b, more, same, solid, unclosed⟩ := value.property.begins
    refine ⟨value.val, same ▸ .element solid unclosed, fun sofar next rest left ends stepped => ?_⟩
    obtain ⟨x, mid, took, stepped⟩ := bind_inv stepped
    cases stepped
    have stops := agrees.exact value.property blanks_nil ends took
    subst stops
    exact ⟨rfl, left, x, ends, took⟩
  simp only [List.cons_append, List.append_assoc, List.nil_append, list] at read
  rw [bind_ok (peek_token blanks (by decide))] at read
  simp only [foldElements_eq] at read
  obtain ⟨final, chain, _⟩ := chain_of_enclosed does inside read
  intro value listed
  obtain ⟨_, _, took⟩ := chain.mem listed
  exact took

theorem label_exact {label : Reader ι} (labels : ∀ {core k mid}, label core = .ok (k, mid) →
      skipText core = .ok ((), mid)) {name : String} {bytes : Bytes} {k : ι}
    (content : Content name.toList bytes) (read : label (bytes ++ quote :: rest) = .ok (k, left)) :
    left = rest := by
  have skipped := skipText_of_text (text_content content rest)
  rw [labels read] at skipped
  cases skipped
  rfl

theorem values_of_entries {label : Reader ι} {element : Reader α} {members : List Entry}
    {xs : List (ι × α)} (labels : ∀ {core k mid}, label core = .ok (k, mid) →
      skipText core = .ok ((), mid)) (agrees : Agrees element) (spelled : Entries members text)
    (blanks : Blanks before)
    (read : entries label element (before ++ (text ++ rest)) = .ok (xs, left)) :
    ∀ entry ∈ members, ∃ gap after x, Blanks gap ∧ Ends after ∧
      element (gap ++ (entry.value ++ after)) = .ok (x, after) := by
  obtain ⟨bytes, inside, rfl⟩ := spelled
  have does : ∀ (entry : Entry) text,
      Labelled Entry.name (fun entry text => text = entry.value) entry text →
      Does .object (fun sofar => do
        let k ← label
        colon
        let v ← element
        pure ((k, v) :: sofar)) text fun _ _ =>
          ∃ gap after x, Blanks gap ∧ Ends after ∧
            element (gap ++ (entry.value ++ after)) = .ok (x, after) := by
    rintro entry _ ⟨name, _, content, rfl, between, gap, colons, space, rfl⟩
    refine ⟨_, .member _, fun sofar next rest left ends stepped => ?_⟩
    simp only [List.append_assoc, List.cons_append] at stepped
    obtain ⟨k, mid, labelled, stepped⟩ := bind_inv stepped
    cases label_exact labels content labelled
    rw [bind_ok (colon_blanks colons _)] at stepped
    obtain ⟨x, after, took, stepped⟩ := bind_inv stepped
    cases stepped
    have stops := agrees.exact entry.isValue space ends took
    subst stops
    exact ⟨rfl, gap, left, x, space, ends, took⟩
  simp only [List.cons_append, List.append_assoc, List.nil_append, entries] at read
  rw [bind_ok (peek_token blanks (by decide))] at read
  simp only [foldMembers_eq] at read
  obtain ⟨final, chain, _⟩ := chain_of_enclosed does inside read
  intro entry listed
  obtain ⟨_, _, took⟩ := chain.mem listed
  exact took

/-- What an entry can do to a draft: a known one fills its place, which must be free. -/
def Shape.Gives (shape : Shape σ α) (draft : σ) (entry : Entry) (next : σ) : Prop :=
  match shape.members.find? fun member => member.name = entry.name with
  | some member => member.isGiven draft = false ∧ ∃ gap after, Blanks gap ∧ Ends after ∧
      member.read draft (gap ++ (entry.value ++ after)) = .ok (next, after)
  | none => next = draft

theorem Shape.chain_of_read {shape : Shape σ α} {members : List Entry} {record : α}
    (agrees : ∀ member ∈ shape.members, ∀ draft, Agrees (member.read draft))
    (spelled : Entries members text) (blanks : Blanks before)
    (read : shape.read (before ++ (text ++ rest)) = .ok (record, left)) :
    left = rest ∧
      ∃ final, Chain shape.Gives shape.blank members final ∧ shape.finish? final = some record := by
  obtain ⟨bytes, inside, rfl⟩ := spelled
  have does : ∀ (entry : Entry) text,
      Labelled Entry.name (fun entry text => text = entry.value) entry text →
      Does .object shape.readMember text fun draft next => shape.Gives draft entry next := by
    rintro entry _ ⟨name, _, content, rfl, between, gap, colons, space, rfl⟩
    refine ⟨_, .member _, fun draft next rest left ends stepped => ?_⟩
    simp only [List.append_assoc, List.cons_append] at stepped
    have named := text_content content (between ++ 0x3a :: (gap ++ (entry.value ++ rest)))
    rw [String.ofList_toList] at named
    have stepped := (bind_ok named).symm.trans stepped
    unfold Shape.Gives
    cases found : shape.members.find? fun member => member.name = entry.name with
    | some member =>
      simp only [found] at stepped
      split at stepped
      · cases stepped
      · rename_i free
        rw [bind_ok (colon_blanks colons _)] at stepped
        have known := List.mem_of_find?_eq_some found
        have stops := (agrees member known draft).exact entry.isValue space ends stepped
        subst stops
        exact ⟨rfl, Bool.eq_false_iff.mpr free, gap, left, space, ends, stepped⟩
    | none =>
      simp only [found] at stepped
      rw [bind_ok (colon_blanks colons _),
        bind_ok (skipValue_value space entry.isValue ends)] at stepped
      cases stepped
      exact ⟨rfl, rfl⟩
  simp only [List.cons_append, List.append_assoc, List.nil_append, Shape.read] at read
  rw [bind_ok (peek_token blanks (by decide))] at read
  simp only [foldMembers_eq] at read
  obtain ⟨final, chain, finishes⟩ := chain_of_enclosed does inside read
  obtain ⟨made, mid, finished, closes⟩ := bind_inv finishes
  obtain ⟨known, rfl⟩ := finish_inv finished
  cases closes
  exact ⟨rfl, final, chain, known⟩

end Texts

end QueueAssignment.Json
