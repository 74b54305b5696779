/-!
# Ordered maps

A finite map kept as its entries in strictly increasing order of keys.

* The order of the entries is part of the value, so listing a map needs no sort.
* Of two entries written under one key, the later stays.
-/

namespace StyledText

universe u v

/-- A finite map whose entries stand in strictly increasing order of their keys. -/
structure OrderedMap (κ : Type u) (ν : Type v) [Ord κ] where
  /-- The entries, smallest key first. -/
  entries : List (κ × ν)
  /-- Keys strictly increase, so no key occurs twice. -/
  sorted : entries.Pairwise fun a b => compare a.1 b.1 = .lt
deriving DecidableEq

namespace OrderedMap

variable {κ : Type u} {ν : Type v} [Ord κ]

/-! ## Entry lists -/

def lookup (key : κ) : List (κ × ν) → Option ν
  | [] => none
  | e :: rest => if compare key e.1 = .eq then some e.2 else lookup key rest

/-- Puts an entry in its place in a sorted list, instead of one with the same key. -/
def insertEntry (key : κ) (value : ν) : List (κ × ν) → List (κ × ν)
  | [] => [(key, value)]
  | e :: rest =>
    match compare key e.1 with
    | .lt => (key, value) :: e :: rest
    | .eq => (key, value) :: rest
    | .gt => e :: insertEntry key value rest

/-- Takes the entry with the given key out of a list. -/
def eraseEntry (key : κ) (entries : List (κ × ν)) : List (κ × ν) :=
  entries.filter fun e => compare key e.1 ≠ .eq

theorem mem_insertEntry {key : κ} {value : ν} {a : κ × ν} {l : List (κ × ν)}
    (h : a ∈ insertEntry key value l) : a = (key, value) ∨ a ∈ l := by
  induction l with
  | nil => exact .inl (by simpa [insertEntry] using h)
  | cons e rest ih =>
    simp only [insertEntry] at h
    split at h
    · simpa using h
    · exact (List.mem_cons.1 h).imp_right (List.mem_cons_of_mem _)
    · rcases List.mem_cons.1 h with h | h
      · exact .inr (h ▸ List.mem_cons_self)
      · exact (ih h).imp_right (List.mem_cons_of_mem _)

/-- Inserting keeps the keys in order, without repetition. -/
theorem sorted_insertEntry [Std.TransOrd κ] [Std.LawfulEqOrd κ] {key : κ} {value : ν}
    {l : List (κ × ν)} (h : l.Pairwise fun a b => compare a.1 b.1 = .lt) :
    (insertEntry key value l).Pairwise fun a b => compare a.1 b.1 = .lt := by
  induction l with
  | nil => simp [insertEntry]
  | cons e rest ih =>
    have he := List.pairwise_cons.1 h
    simp only [insertEntry]
    split
    · -- the entry comes first, takes the place of one with its key, or goes further back
      next hlt =>
      refine List.pairwise_cons.2 ⟨fun b hb => ?_, h⟩
      rcases List.mem_cons.1 hb with rfl | hb
      · exact hlt
      · exact Std.TransCmp.lt_trans hlt (he.1 b hb)
    · next heq =>
      refine List.pairwise_cons.2 ⟨fun b hb => ?_, he.2⟩
      rw [Std.LawfulEqCmp.eq_of_compare heq]
      exact he.1 b hb
    · next hgt =>
      refine List.pairwise_cons.2 ⟨fun b hb => ?_, ih he.2⟩
      rcases mem_insertEntry hb with rfl | hb
      · exact Std.OrientedCmp.gt_iff_lt.1 hgt
      · exact he.1 b hb

/-! ## Reading -/

def empty : OrderedMap κ ν := ⟨[], .nil⟩

instance : EmptyCollection (OrderedMap κ ν) := ⟨empty⟩

instance : Inhabited (OrderedMap κ ν) := ⟨empty⟩

/-- Compares entry by entry, with the comparison of the values. -/
instance [BEq κ] [BEq ν] : BEq (OrderedMap κ ν) := ⟨fun a b => a.entries == b.entries⟩

/-- The value stored under `key`. -/
def get? (m : OrderedMap κ ν) (key : κ) : Option ν := lookup key m.entries

def contains (m : OrderedMap κ ν) (key : κ) : Bool := (m.get? key).isSome

/-- The entries in order of keys. -/
def toList (m : OrderedMap κ ν) : List (κ × ν) := m.entries

/-- The keys in order. -/
def keys (m : OrderedMap κ ν) : List κ := m.entries.map Prod.fst

def size (m : OrderedMap κ ν) : Nat := m.entries.length

def isEmpty (m : OrderedMap κ ν) : Bool := m.entries.isEmpty

/-! ## Writing -/

def erase (m : OrderedMap κ ν) (key : κ) : OrderedMap κ ν :=
  ⟨eraseEntry key m.entries, m.sorted.filter _⟩

variable [Std.TransOrd κ] [Std.LawfulEqOrd κ]

/-- Stores `value` under `key`, instead of what was there. -/
def insert (m : OrderedMap κ ν) (key : κ) (value : ν) : OrderedMap κ ν :=
  ⟨insertEntry key value m.entries, sorted_insertEntry m.sorted⟩

/-- Stores a list of entries one after the other. -/
def insertMany (m : OrderedMap κ ν) (entries : List (κ × ν)) : OrderedMap κ ν :=
  entries.foldl (fun m e => m.insert e.1 e.2) m

def ofList (entries : List (κ × ν)) : OrderedMap κ ν := empty.insertMany entries

/-- The entries of both maps; where both hold a key, `other` decides. -/
def override (m other : OrderedMap κ ν) : OrderedMap κ ν := m.insertMany other.entries

end OrderedMap

end StyledText
