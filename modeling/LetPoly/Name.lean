import Std.Data.ExtTreeMap
import Std.Data.ExtTreeSet

/-!
# Names

Program variables and type variables are arbitrary strings; the two kinds never
meet in one set or map.  Finite sets and maps keyed by names are the standard
library's extensional search trees: two of them are equal as soon as they have
the same members, and they list their members in code point order.

The two facts about sizes of sets are what makes the number of distinct
variables usable as a termination measure.
-/

namespace LetPoly

/-- The name of a program variable. -/
abbrev Var : Type := String

/-- The name of a type variable. -/
abbrev TyVar : Type := String

/-- A finite set of names, listed in code point order. -/
abbrev NameSet : Type := Std.ExtTreeSet String

/-- A finite map keyed by names, listed in code point order of its keys. -/
abbrev NameMap (α : Type) : Type := Std.ExtTreeMap String α

namespace NameSet

/-- The set of the names in a list. -/
def ofList (names : List String) : NameSet := Std.ExtTreeSet.ofList names

@[simp]
theorem mem_ofList {names : List String} {name : String} :
    name ∈ ofList names ↔ name ∈ names := by
  simp [ofList, Std.ExtTreeSet.mem_ofList]

theorem mem_insert_iff {names : NameSet} {name other : String} :
    other ∈ names.insert name ↔ other = name ∨ other ∈ names := by
  rw [Std.ExtTreeSet.mem_insert, Std.LawfulEqCmp.compare_eq_iff_eq]
  exact or_congr_left eq_comm

/-- The listing of a set repeats no name. -/
theorem nodup_toList (names : NameSet) : names.toList.Nodup := by
  simpa [List.Nodup] using names.distinct_toList

/-- A set is at most as large as a set that includes it. -/
theorem size_le_of_subset {smaller larger : NameSet}
    (subset : ∀ name, name ∈ smaller → name ∈ larger) :
    smaller.size ≤ larger.size := by
  rw [← Std.ExtTreeSet.length_toList, ← Std.ExtTreeSet.length_toList]
  apply (nodup_toList smaller).length_le_of_subset
  intro name membership
  exact Std.ExtTreeSet.mem_toList.mpr
    (subset name (Std.ExtTreeSet.mem_toList.mp membership))

/-- A set is smaller than a set that includes it and one more name. -/
theorem size_lt_of_subset {smaller larger : NameSet} {extra : String}
    (subset : ∀ name, name ∈ smaller → name ∈ larger)
    (extraMember : extra ∈ larger) (extraAbsent : extra ∉ smaller) :
    smaller.size < larger.size := by
  have inserted : (smaller.insert extra).size ≤ larger.size := by
    apply size_le_of_subset
    intro name membership
    rcases mem_insert_iff.mp membership with equal | member
    · exact equal ▸ extraMember
    · exact subset name member
  rw [Std.ExtTreeSet.size_insert, if_neg (by simpa using extraAbsent)] at inserted
  exact inserted

end NameSet

namespace NameMap

variable {α : Type}

/-- Look-up after an insertion. -/
theorem getElem?_insert_eq (map : NameMap α) (key other : String) (value : α) :
    (map.insert key value)[other]? = if other = key then some value else map[other]? := by
  by_cases equal : other = key
  · simp [equal]
  · simp [Std.ExtTreeMap.getElem?_insert, equal, Ne.symm equal]

/-- Look-up after a value was entered for a key that may have one already. -/
theorem getElem?_insertIfNew_eq (map : NameMap α) (key other : String) (value : α) :
    (map.insertIfNew key value)[other]? =
      if other = key then some (map[key]?.getD value) else map[other]? := by
  rw [Std.ExtTreeMap.getElem?_insertIfNew]
  by_cases equal : other = key
  · subst equal
    cases found : map[other]? <;> simp [Std.ExtTreeMap.mem_iff_isSome_getElem?, found]
  · simp [equal, Ne.symm equal]

/-- Look-up after a removal. -/
theorem getElem?_erase_eq (map : NameMap α) (key other : String) :
    (map.erase key)[other]? = if other = key then none else map[other]? := by
  by_cases equal : other = key
  · simp [equal]
  · simp [Std.ExtTreeMap.getElem?_erase, equal, Ne.symm equal]

end NameMap

end LetPoly
