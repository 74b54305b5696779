import StyledText.OrderedMap.Basic

/-!
# Lookups in ordered maps

* `get?_insert`, `get?_erase`: what a lookup finds after a write.
* `get?_ofList_eq_some_iff`, `get?_override`: what a lookup finds after several writes.
* `get?_eq_some_iff`: a lookup finds exactly the listed entries.
* `ext_get?`: maps with the same lookups are the same map.
-/

namespace StyledText.OrderedMap

universe u v

variable {κ : Type u} {ν : Type v} [Ord κ]

@[simp] theorem get?_empty (key : κ) : (empty : OrderedMap κ ν).get? key = none := rfl

variable [Std.LawfulEqOrd κ]

theorem not_lt_self (a : κ) : ¬ compare a a = .lt := by
  simp

/-! ## Writes -/

/-- What was inserted is found under its key, and all else is found as before. -/
theorem lookup_insertEntry [DecidableEq κ] (key k : κ) (value : ν) (l : List (κ × ν)) :
    lookup k (insertEntry key value l) = if k = key then some value else lookup k l := by
  induction l with
  | nil => simp [insertEntry, lookup]
  | cons e rest ih =>
    simp only [insertEntry]
    split
    · simp [lookup]
    · next h =>
      rw [Std.LawfulEqCmp.eq_of_compare h]
      -- the entry with the same key is replaced
      by_cases hk : k = e.1 <;> simp [lookup, hk]
    · next h =>
      have hne : e.1 ≠ key := fun h' => by
        simp [h'] at h
      by_cases hk : k = e.1
      · simp [lookup, hk, hne]
      · simp [lookup, ih, hk]

theorem lookup_eraseEntry [DecidableEq κ] (key k : κ) (l : List (κ × ν)) :
    lookup k (eraseEntry key l) = if k = key then none else lookup k l := by
  induction l with
  | nil => simp [eraseEntry, lookup]
  | cons e rest ih =>
    simp only [eraseEntry, List.filter_cons, lookup] at ih ⊢
    by_cases he : key = e.1
    · by_cases hk : k = e.1 <;> simp_all
    · by_cases hk : k = e.1
      · have : ¬ e.1 = key := fun h => he h.symm
        simp [lookup, he, hk, this]
      · simpa [lookup, he, hk] using ih

@[simp] theorem get?_insert [Std.TransOrd κ] [DecidableEq κ] (m : OrderedMap κ ν) (key k : κ)
    (value : ν) : (m.insert key value).get? k = if k = key then some value else m.get? k :=
  lookup_insertEntry key k value m.entries

@[simp] theorem get?_erase [DecidableEq κ] (m : OrderedMap κ ν) (key k : κ) :
    (m.erase key).get? k = if k = key then none else m.get? k :=
  lookup_eraseEntry key k m.entries

/-! ## Entries -/

/-- Keys do not repeat in a sorted list, so looking up is membership. -/
theorem lookup_eq_some_iff {l : List (κ × ν)}
    (h : l.Pairwise fun a b => compare a.1 b.1 = .lt) {key : κ} {value : ν} :
    lookup key l = some value ↔ (key, value) ∈ l := by
  induction l with
  | nil => simp [lookup]
  | cons e rest ih =>
    have he := List.pairwise_cons.1 h
    by_cases hk : key = e.1
    · have : (e.1, value) ∉ rest := fun hm => not_lt_self e.1 (he.1 (e.1, value) hm)
      simp [lookup, hk, this, Prod.ext_iff, eq_comm]
    · simp [lookup, hk, ih he.2, Prod.ext_iff]

/-- A lookup finds exactly the listed entries. -/
theorem get?_eq_some_iff {m : OrderedMap κ ν} {key : κ} {value : ν} :
    m.get? key = some value ↔ (key, value) ∈ m.toList :=
  lookup_eq_some_iff m.sorted

/-- A sorted list is determined by its members. -/
theorem eq_of_mem_iff [Std.TransOrd κ] {l r : List (κ × ν)}
    (hl : l.Pairwise fun a b => compare a.1 b.1 = .lt)
    (hr : r.Pairwise fun a b => compare a.1 b.1 = .lt) (mem : ∀ e, e ∈ l ↔ e ∈ r) : l = r := by
  induction l generalizing r with
  | nil =>
    cases r with
    | nil => rfl
    | cons b r => exact absurd ((mem b).2 List.mem_cons_self) List.not_mem_nil
  | cons a l ih =>
    cases r with
    | nil => exact absurd ((mem a).1 List.mem_cons_self) List.not_mem_nil
    | cons b r =>
      have ha := List.pairwise_cons.1 hl
      have hb := List.pairwise_cons.1 hr
      -- the two heads are the smallest keys of the same members
      have hab : a = b := by
        rcases List.mem_cons.1 ((mem a).1 List.mem_cons_self) with h | h
        · exact h
        · rcases List.mem_cons.1 ((mem b).2 List.mem_cons_self) with h' | h'
          · exact h'.symm
          · exact absurd (Std.TransCmp.lt_trans (ha.1 b h') (hb.1 a h)) (not_lt_self a.1)
      subst hab
      -- and neither tail has the head again
      refine congrArg _ (ih ha.2 hb.2 fun e => ⟨fun h => ?_, fun h => ?_⟩)
      · rcases List.mem_cons.1 ((mem e).1 (List.mem_cons_of_mem _ h)) with rfl | h'
        · exact absurd (ha.1 e h) (not_lt_self _)
        · exact h'
      · rcases List.mem_cons.1 ((mem e).2 (List.mem_cons_of_mem _ h)) with rfl | h'
        · exact absurd (hb.1 e h) (not_lt_self _)
        · exact h'

/-- Maps with the same lookups are equal. -/
theorem ext_get? [Std.TransOrd κ] {m n : OrderedMap κ ν}
    (h : ∀ key, m.get? key = n.get? key) : m = n := by
  have entries_eq : m.entries = n.entries := eq_of_mem_iff m.sorted n.sorted fun e => by
    have := @get?_eq_some_iff _ _ _ _ m e.1 e.2
    rw [h e.1, get?_eq_some_iff] at this
    exact this.symm
  cases m
  cases n
  cases entries_eq
  rfl

/-! ## Several writes -/

section Override

variable [Std.TransOrd κ] [DecidableEq κ]

/-- Of two writes under one key, the later stays. -/
theorem insert_insert (m : OrderedMap κ ν) (key : κ) (value later : ν) :
    (m.insert key value).insert key later = m.insert key later := by
  apply ext_get?
  intro k
  by_cases hk : k = key <;> simp [hk]

/-- The entries inserted last are found first. -/
theorem get?_insertMany {l : List (κ × ν)} (h : l.Pairwise fun a b => compare a.1 b.1 = .lt)
    (m : OrderedMap κ ν) (key : κ) :
    (m.insertMany l).get? key = (lookup key l).or (m.get? key) := by
  induction l generalizing m with
  | nil => rfl
  | cons e rest ih =>
    have he := List.pairwise_cons.1 h
    have hmany : m.insertMany (e :: rest) = (m.insert e.1 e.2).insertMany rest := rfl
    rw [hmany, ih he.2, get?_insert, lookup]
    by_cases hk : key = e.1
    · -- the key is not among the entries that follow
      have hnone : lookup key rest = none := by
        rw [Option.eq_none_iff_forall_ne_some]
        intro value hvalue
        have hmem := (lookup_eq_some_iff he.2).1 hvalue
        have hlt := he.1 _ hmem
        rw [hk] at hlt
        exact not_lt_self e.1 hlt
      rw [hnone]
      simp [hk]
    · simp [hk]

/-- The last of several writes under one key stays. -/
theorem get?_insertMany_eq_find? (m : OrderedMap κ ν) (l : List (κ × ν)) (key : κ) :
    (m.insertMany l).get? key =
      ((l.reverse.find? fun e => e.1 = key).map Prod.snd).or (m.get? key) := by
  induction l generalizing m with
  | nil => rfl
  | cons e rest ih =>
    have hmany : m.insertMany (e :: rest) = (m.insert e.1 e.2).insertMany rest := rfl
    rw [hmany, ih, get?_insert, List.reverse_cons, List.find?_append]
    cases rest.reverse.find? fun e => e.1 = key with
    | some found => rfl
    | none => by_cases hk : e.1 = key <;> simp [hk, Ne.symm]

/-- A map of entries holds the last one of each key. -/
theorem get?_ofList_eq_some_iff {l : List (κ × ν)} {key : κ} {value : ν} :
    (ofList l).get? key = some value ↔
      ∃ before after, l = before ++ (key, value) :: after ∧ ∀ e ∈ after, e.1 ≠ key := by
  rw [ofList, get?_insertMany_eq_find?, get?_empty, Option.or_none, Option.map_eq_some_iff]
  simp only [List.find?_eq_some_iff_append]
  -- entries are inserted from the left, so the search from the right stops at the last one of the
  -- key
  constructor
  · rintro ⟨⟨k, x⟩, ⟨hkey, later, earlier, hsplit, hlater⟩, rfl⟩
    have hk : k = key := by simpa using hkey
    refine ⟨earlier.reverse, later.reverse, ?_, ?_⟩
    · rw [← List.reverse_reverse l, hsplit, hk]
      simp
    · intro e he
      simpa using hlater e (List.mem_reverse.1 he)
  · rintro ⟨before, after, rfl, hafter⟩
    refine ⟨(key, value), ⟨by simp, after.reverse, before.reverse, by simp, ?_⟩, rfl⟩
    intro e he
    simpa using hafter e (List.mem_reverse.1 he)

/-- Values that are changed entry by entry are found changed. -/
theorem get?_ofList_map (f : κ → ν → ν) (l : List (κ × ν)) (key : κ) :
    (ofList (l.map fun e => (e.1, f e.1 e.2))).get? key = ((ofList l).get? key).map (f key) := by
  rw [ofList, ofList, get?_insertMany_eq_find?, get?_insertMany_eq_find?, get?_empty,
    Option.or_none, Option.or_none, ← List.map_reverse, List.find?_map, Option.map_map,
    Option.map_map]
  cases hfound : l.reverse.find? fun e => e.1 = key with
  | none => simp [Function.comp_def, hfound]
  | some e =>
    have hkey := List.find?_some hfound
    simp only [decide_eq_true_eq] at hkey
    simp [Function.comp_def, hfound, hkey]

theorem contains_ofList_iff {l : List (κ × ν)} {key : κ} :
    (ofList l).contains key ↔ ∃ e ∈ l, e.1 = key := by
  rw [contains, ofList, get?_insertMany_eq_find?, get?_empty, Option.or_none, Option.isSome_map,
    List.find?_isSome]
  simp

/-- Of entries read off a sorted row, the one that stays is the last of its key. -/
theorem get?_ofList_filterMap_eq_some_iff {α : Type _} {R : α → α → Prop}
    {f : α → Option (κ × ν)} {row : List α} (hrow : row.Pairwise R)
    (hasymm : ∀ a b, R a b → ¬ R b a) {key : κ} {value : ν} :
    (ofList (row.filterMap f)).get? key = some value ↔
      ∃ a ∈ row, f a = some (key, value) ∧
        ∀ b ∈ row, ∀ other, f b = some (key, other) → ¬ R a b := by
  rw [get?_ofList_eq_some_iff]
  constructor
  · -- the last entry of the key comes from the last element of the row that yields it
    intro ⟨before, after, hsplit, hafter⟩
    obtain ⟨row₁, row₂, rfl, -, hrest⟩ := List.filterMap_eq_append_iff.1 hsplit
    obtain ⟨skipped, a, later, rfl, hskipped, ha, hlater⟩ := List.filterMap_eq_cons_iff.1 hrest
    refine ⟨a, by simp, ha, ?_⟩
    intro b hb other hother
    rw [← List.append_assoc] at hb hrow
    rcases List.mem_append.1 hb with hearlier | hb
    · exact hasymm b a ((List.pairwise_append.1 hrow).2.2 b hearlier a List.mem_cons_self)
    · rcases List.mem_cons.1 hb with rfl | hlast
      · exact fun hself => hasymm b b hself hself
      · have hmem : (key, other) ∈ after := hlater ▸ List.mem_filterMap.2 ⟨b, hlast, hother⟩
        exact absurd rfl (hafter _ hmem)
  · intro ⟨a, ha, hvalue, hlast⟩
    obtain ⟨before, after, rfl⟩ := List.append_of_mem ha
    refine ⟨before.filterMap f, after.filterMap f, by simp [hvalue], ?_⟩
    intro e he hkey
    obtain ⟨b, hb, hother⟩ := List.mem_filterMap.1 he
    have hab : R a b := (List.pairwise_cons.1 (List.pairwise_append.1 hrow).2.1).1 b hb
    subst hkey
    exact hlast b (by simp [hb]) e.2 hother hab

/-- Of two maps, the one written over the other is asked first. -/
@[simp] theorem get?_override (m n : OrderedMap κ ν) (key : κ) :
    (m.override n).get? key = (n.get? key).or (m.get? key) :=
  get?_insertMany n.sorted m key

end Override

end StyledText.OrderedMap
