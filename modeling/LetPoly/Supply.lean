import LetPoly.Name

/-!
# Supplies of fresh names

A supply makes names by writing a running number after a fixed stem.  It never
hands out a reserved name: candidates that are reserved are skipped, and their
numbers are spent.

Among as many consecutive candidates as there are reserved names, plus one, some
candidate is not reserved, because different numbers give different names.  The
search is therefore bounded by the number of reserved names, and it always
succeeds (`fresh_not_mem_reserved`).

The running number has no bound.  A counter of machine size would run over after
as many names as it has values, and overflow of the counter is set aside here.
-/

namespace LetPoly

/-- A source of type variable names.  The counter `next` is an unbounded number: that
it might overflow is set aside. -/
structure Supply where
  stem : String := "t"
  next : Nat := 0
  reserved : NameSet := ∅
deriving DecidableEq

namespace Supply

/-- The candidate name with a given number. -/
def candidate (supply : Supply) (number : Nat) : TyVar :=
  supply.stem ++ toString number

/-- The first number from `number` on whose candidate is not reserved, if there
is one among the next `budget`; otherwise the number after those. -/
def search (supply : Supply) : (budget number : Nat) → Nat
  | 0, number => number
  | budget + 1, number =>
      if supply.candidate number ∈ supply.reserved then
        supply.search budget (number + 1)
      else
        number

/-- The number of the next name to hand out. -/
def nextFree (supply : Supply) : Nat :=
  supply.search supply.reserved.size supply.next

/-! ## The search succeeds -/

/-- Different numbers give different names. -/
theorem candidate_injective {supply : Supply} {first second : Nat}
    (equal : supply.candidate first = supply.candidate second) : first = second := by
  have texts : supply.stem.toList ++ (toString first).toList =
      supply.stem.toList ++ (toString second).toList := by
    simpa [candidate] using congrArg String.toList equal
  have digits : Nat.toDigits 10 first = Nat.toDigits 10 second := by
    simpa only [Nat.toString_eq_repr, Nat.toList_repr] using
      List.append_cancel_left texts
  simpa using congrArg (fun characters => Nat.ofDigitChars 10 characters 0) digits

/-- The search passes over reserved candidates only, and it stops at one that is
not reserved unless its budget is spent. -/
theorem search_spec (supply : Supply) (budget number : Nat) :
    number ≤ supply.search budget number ∧
      (∀ passed, number ≤ passed → passed < supply.search budget number →
        supply.candidate passed ∈ supply.reserved) ∧
      (supply.candidate (supply.search budget number) ∉ supply.reserved ∨
        supply.search budget number = number + budget) := by
  induction budget generalizing number with
  | zero =>
      refine ⟨Nat.le_refl _, ?_, .inr rfl⟩
      intro passed atLeast below
      exact absurd below (Nat.not_lt.mpr atLeast)
  | succ budget induction =>
      rw [search]
      split
      next reserved =>
        obtain ⟨later, passedReserved, stops⟩ := induction (number + 1)
        refine ⟨by omega, ?_, stops.imp_right (by omega)⟩
        intro passed atLeast below
        rcases Nat.eq_or_lt_of_le atLeast with rfl | after
        · exact reserved
        · exact passedReserved passed after below
      next free =>
        refine ⟨Nat.le_refl _, ?_, .inl free⟩
        intro passed atLeast below
        exact absurd below (Nat.not_lt.mpr atLeast)

/-- Consecutive reserved candidates are at most as many as there are reserved
names. -/
theorem length_le_of_reserved {supply : Supply} {start count : Nat}
    (reserved : ∀ number, start ≤ number → number < start + count →
      supply.candidate number ∈ supply.reserved) :
    count ≤ supply.reserved.size := by
  have distinct : ((List.range' start count).map supply.candidate).Nodup := by
    refine List.Pairwise.map _ ?_ List.nodup_range'
    intro first second different equal
    exact different (candidate_injective equal)
  have listed : (List.range' start count).map supply.candidate ⊆ supply.reserved.toList := by
    intro name membership
    obtain ⟨number, inRange, rfl⟩ := List.mem_map.mp membership
    obtain ⟨atLeast, below⟩ := List.mem_range'_1.mp inRange
    exact Std.ExtTreeSet.mem_toList.mpr (reserved number atLeast below)
  simpa using distinct.length_le_of_subset listed

/-- The next number to hand out is free. -/
theorem candidate_nextFree_not_mem (supply : Supply) :
    supply.candidate supply.nextFree ∉ supply.reserved := by
  obtain ⟨_, passedReserved, stops⟩ := supply.search_spec supply.reserved.size supply.next
  rcases stops with free | spent
  · exact free
  · intro reserved
    have allReserved : ∀ number, supply.next ≤ number →
        number < supply.next + (supply.reserved.size + 1) →
        supply.candidate number ∈ supply.reserved := by
      intro number atLeast below
      rcases Nat.lt_or_ge number supply.nextFree with passed | last
      · exact passedReserved number atLeast passed
      · have equal : number = supply.nextFree := by
          unfold nextFree at *
          omega
        exact equal ▸ reserved
    have tooMany := length_le_of_reserved allReserved
    omega

/-! ## Drawing names -/

/-- Hand out the next name that is not reserved. -/
def fresh (supply : Supply) : TyVar × Supply :=
  (supply.candidate supply.nextFree, { supply with next := supply.nextFree + 1 })

/-- A name that is handed out is not reserved. -/
theorem fresh_not_mem_reserved (supply : Supply) : supply.fresh.1 ∉ supply.reserved :=
  supply.candidate_nextFree_not_mem

/-- Hand out several names, in order. -/
def freshMany (supply : Supply) : Nat → List TyVar × Supply
  | 0 => ([], supply)
  | count + 1 =>
      let (first, afterFirst) := supply.fresh
      let (others, afterAll) := afterFirst.freshMany count
      (first :: others, afterAll)

/-- Never hand out any of the given names from now on. -/
def reserve (supply : Supply) (names : NameSet) : Supply :=
  { supply with reserved := supply.reserved ∪ names }

end Supply

end LetPoly
