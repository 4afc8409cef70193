import QueueAssignment.Table

/-!
What a table of entries holds, and what is left of a table or a set after some of its keys
are taken out.
-/
namespace QueueAssignment.Table
open Std

variable {κ ν : Type} [Ord κ] [TransOrd κ] [LawfulEqOrd κ]

theorem foldl_insert_cases (entries : List (κ × ν)) (table : ExtTreeMap κ ν) (k : κ) :
    (∃ v, (k, v) ∈ entries ∧
        (entries.foldl (fun t e => t.insert e.1 e.2) table)[k]? = some v) ∨
      (∀ v, (k, v) ∉ entries) ∧
        (entries.foldl (fun t e => t.insert e.1 e.2) table)[k]? = table[k]? := by
  induction entries generalizing table with
  | nil => simp
  | cons entry rest ih =>
    simp only [List.foldl_cons]
    rcases ih (table.insert entry.1 entry.2) with ⟨v, member, found⟩ | ⟨absent, same⟩
    · exact Or.inl ⟨v, List.mem_cons_of_mem _ member, found⟩
    · by_cases here : entry.1 = k
      · subst here
        left
        exact ⟨entry.2, by simp, by rw [same]; simp⟩
      · right
        constructor
        · intro v member
          rcases List.mem_cons.mp member with eq | member
          · exact here (by rw [← eq])
          · exact absent v member
        · rw [same, ExtTreeMap.getElem?_insert]
          simp [here]

theorem mem_of_getElem?_ofEntries {entries : List (κ × ν)} {k : κ} {v : ν}
    (found : (ofEntries entries)[k]? = some v) : (k, v) ∈ entries := by
  rw [ofEntries, ExtTreeMap.ofList_eq_foldl] at found
  rcases foldl_insert_cases entries ∅ k with ⟨w, member, value⟩ | ⟨_, same⟩
  · have eq : w = v := by simpa [value] using found
    exact eq ▸ member
  · simp [same] at found

theorem getElem?_ofEntries_of_agree {entries : List (κ × ν)} {k : κ} {v : ν}
    (member : (k, v) ∈ entries) (agree : ∀ w, (k, w) ∈ entries → w = v) :
    (ofEntries entries)[k]? = some v := by
  rw [ofEntries, ExtTreeMap.ofList_eq_foldl]
  rcases foldl_insert_cases entries ∅ k with ⟨w, found, value⟩ | ⟨absent, _⟩
  · rw [value, agree w found]
  · exact absurd member (absent v)

theorem ofEntries_toList (table : ExtTreeMap κ ν) : ofEntries table.toList = table := by
  apply ExtTreeMap.ext_getElem?
  intro k
  cases found : table[k]? with
  | some v =>
    refine getElem?_ofEntries_of_agree (ExtTreeMap.mem_toList_iff_getElem?_eq_some.mpr found) ?_
    intro w member
    have other := ExtTreeMap.mem_toList_iff_getElem?_eq_some.mp member
    exact Option.some.inj (other.symm.trans found)
  | none =>
    cases listed : (ofEntries table.toList)[k]? with
    | none => rfl
    | some w =>
      have member := mem_of_getElem?_ofEntries listed
      have other := ExtTreeMap.mem_toList_iff_getElem?_eq_some.mp member
      exact absurd (found.symm.trans other) nofun

omit [LawfulEqOrd κ] in
theorem eq_of_ascending {α : Type} (key : α → κ) {first second : List α}
    (left : first.Pairwise fun a b => compare (key a) (key b) = .lt)
    (right : second.Pairwise fun a b => compare (key a) (key b) = .lt)
    (same : ∀ a, a ∈ first ↔ a ∈ second) : first = second := by
  have nodup : ∀ {list : List α}, list.Pairwise (fun a b => compare (key a) (key b) = .lt) →
      list.Nodup := by
    intro list ascending
    refine ascending.imp ?_
    rintro a _ below rfl
    rw [ReflOrd.compare_self] at below
    cases below
  refine List.Perm.eq_of_pairwise ?_ left right
    ((List.perm_ext_iff_of_nodup (nodup left) (nodup right)).mpr same)
  intro a b _ _ below above
  exact absurd above (OrientedCmp.not_lt_of_lt below)

theorem toList_ofList {ks : List κ} (ascending : ks.Pairwise fun a b => compare a b = .lt) :
    (ExtTreeSet.ofList ks).toList = ks := by
  refine eq_of_ascending (fun k => k) ExtTreeSet.ordered_toList ascending ?_
  intro k
  rw [ExtTreeSet.mem_toList, mem_ofList]

theorem toList_ofEntries {entries : List (κ × ν)}
    (ascending : entries.Pairwise fun a b => compare a.1 b.1 = .lt) :
    (ofEntries entries).toList = entries := by
  refine eq_of_ascending Prod.fst ExtTreeMap.ordered_keys_toList ascending ?_
  intro entry
  rw [ExtTreeMap.mem_toList_iff_getElem?_eq_some]
  constructor
  · exact mem_of_getElem?_ofEntries
  · intro listed
    have distinct : entries.Pairwise fun a b => ¬ compare a.1 b.1 = .eq := by
      refine ascending.imp ?_
      intro a b below same
      rw [below] at same
      cases same
    exact ExtTreeMap.getElem?_ofList_of_mem ReflOrd.compare_self distinct listed

theorem nodup_toList (set : ExtTreeSet κ) : set.toList.Nodup :=
  ExtTreeSet.distinct_toList.imp fun apart same => apart (Std.compare_eq_iff_eq.mpr same)

omit [LawfulEqOrd κ] in
theorem size_keys (table : ExtTreeMap κ ν) : (keys table).size = table.size := by
  rw [keys, ExtTreeSet.size_ofList ExtTreeMap.distinct_keys, ExtTreeMap.length_keys]

theorem mem_single {k a : κ} : k ∈ ExtTreeSet.ofList [a] ↔ k = a := by
  rw [mem_ofList, List.mem_singleton]

theorem mem_filter {set : ExtTreeSet κ} {keep : κ → Bool} {k : κ} :
    k ∈ set.filter keep ↔ k ∈ set ∧ keep k = true := by
  simp [ExtTreeSet.mem_filter]

omit [LawfulEqOrd κ] in
theorem values_eq_map_snd (table : ExtTreeMap κ ν) :
    table.values = table.toList.map Prod.snd := by
  have folded : table.values = table.foldr (fun _ v rest => v :: rest) [] := by
    obtain ⟨inner⟩ := table
    induction inner using ExtDTreeMap.inductionOn with
    | mk m => rfl
  rw [folded, ExtTreeMap.foldr_eq_foldr_toList]
  induction table.toList with
  | nil => rfl
  | cons entry rest ih => simp [ih]

theorem mem_values {table : ExtTreeMap κ ν} {v : ν} :
    v ∈ table.values ↔ ∃ k : κ, table[k]? = some v := by
  rw [values_eq_map_snd]
  simp [ExtTreeMap.mem_toList_iff_getElem?_eq_some]

theorem find?_eq_some_iff_least {α : Type} {before : α → α → Prop} {list : List α}
    (ordered : list.Pairwise before) (asymm : ∀ {a b}, before a b → ¬ before b a)
    {fits : α → Bool} {a : α} : list.find? fits = some a ↔
      a ∈ list ∧ fits a = true ∧ ∀ b ∈ list, fits b = true → b = a ∨ before a b := by
  have sound : ∀ {first}, list.find? fits = some first → first ∈ list ∧ fits first = true ∧
      ∀ b ∈ list, fits b = true → b = first ∨ before first b := by
    intro first found
    refine ⟨List.mem_of_find?_eq_some found, List.find?_some found, ?_⟩
    intro b member suits
    obtain ⟨_, passed, later, rfl, without⟩ := List.find?_eq_some_iff_append.mp found
    rcases List.mem_append.mp member with early | late
    · exact absurd suits (by simpa using without b early)
    · have follows := (List.pairwise_cons.mp (List.pairwise_append.mp ordered).2.1).1
      exact (List.mem_cons.mp late).imp_right fun last => follows b last
  constructor
  · exact sound
  · rintro ⟨member, suits, least⟩
    cases found : list.find? fits with
    | none => exact absurd suits (List.find?_eq_none.mp found a member)
    | some first =>
      obtain ⟨inside, also, smallest⟩ := sound found
      rcases least first inside also with same | above
      · rw [same]
      · rcases smallest a member suits with same | below
        · rw [same]
        · exact absurd below (asymm above)

end QueueAssignment.Table
