import LetPoly.Supply

/-!
# Names that a supply has spent

A name is *spent* once the supply can no longer hand it out: it is reserved, or
its number has gone by.  Drawing only ever adds spent names, and a name that is
drawn was not spent before.  So the names that a computation draws are told apart
from all older ones by the two supplies at its ends (`Supply.Issued`), without a
record of the draws in between.  `Supply.Draws` is that record, and
`Supply.Draws.mem_iff_issued` says that nothing is lost without it.
-/

namespace LetPoly

namespace Supply

/-- A name can no longer be handed out. -/
def Spent (supply : Supply) (name : TyVar) : Prop :=
  name ∈ supply.reserved ∨ ∃ number < supply.next, supply.candidate number = name

/-- A supply is a later state of another, with nothing reserved in between. -/
structure Extends (before after : Supply) : Prop where
  stem : after.stem = before.stem
  reserved : after.reserved = before.reserved
  next : before.next ≤ after.next

/-- A name that was handed out between two states of a supply. -/
def Issued (before after : Supply) (name : TyVar) : Prop :=
  ¬ before.Spent name ∧ after.Spent name

theorem spent_reserve {supply : Supply} {names : NameSet} {name : TyVar}
    (member : name ∈ names) : (supply.reserve names).Spent name :=
  .inl (by simp [reserve, member])

theorem not_spent_of_not_spent_reserve {supply : Supply} {names : NameSet} {name : TyVar}
    (notSpent : ¬ (supply.reserve names).Spent name) : name ∉ names ∧ ¬ supply.Spent name := by
  refine ⟨fun member => notSpent (spent_reserve member), ?_⟩
  rintro (reserved | passed)
  · exact notSpent (.inl (by simp [reserve, reserved]))
  · exact notSpent (.inr passed)

theorem reserve_eq_self {supply : Supply} {names : NameSet}
    (reserved : ∀ name ∈ names, name ∈ supply.reserved) : supply.reserve names = supply := by
  have same : supply.reserved ∪ names = supply.reserved := by
    ext name
    rw [Std.ExtTreeSet.mem_union_iff]
    exact or_iff_left_of_imp (reserved name)
  rw [reserve, same]

namespace Extends

theorem refl (supply : Supply) : supply.Extends supply :=
  ⟨rfl, rfl, Nat.le_refl _⟩

theorem trans {first second third : Supply} (before : first.Extends second)
    (after : second.Extends third) : first.Extends third :=
  ⟨after.stem.trans before.stem, after.reserved.trans before.reserved,
    Nat.le_trans before.next after.next⟩

/-- A spent name stays spent. -/
theorem spent {before after : Supply} (extension : before.Extends after) {name : TyVar}
    (spent : before.Spent name) : after.Spent name := by
  rcases spent with reserved | ⟨number, below, rfl⟩
  · exact .inl (extension.reserved ▸ reserved)
  · refine .inr ⟨number, Nat.lt_of_lt_of_le below extension.next, ?_⟩
    rw [candidate, candidate, extension.stem]

end Extends

namespace Issued

variable {first second third : Supply} {name : TyVar}

theorem later (issued : first.Issued second name) (extension : second.Extends third) :
    first.Issued third name :=
  ⟨issued.1, extension.spent issued.2⟩

theorem earlier (extension : first.Extends second) (issued : second.Issued third name) :
    first.Issued third name :=
  ⟨fun spent => issued.1 (extension.spent spent), issued.2⟩

end Issued

/-! ## Drawing -/

theorem next_le_nextFree (supply : Supply) : supply.next ≤ supply.nextFree :=
  (supply.search_spec supply.reserved.size supply.next).1

theorem fresh_extends (supply : Supply) : supply.Extends supply.fresh.2 :=
  ⟨rfl, rfl, Nat.le_succ_of_le supply.next_le_nextFree⟩

/-- A name that is handed out was not spent. -/
theorem fresh_not_spent (supply : Supply) : ¬ supply.Spent supply.fresh.1 := by
  rintro (reserved | ⟨number, below, equal⟩)
  · exact supply.fresh_not_mem_reserved reserved
  · have same : number = supply.nextFree := candidate_injective equal
    have later := supply.next_le_nextFree
    omega

theorem fresh_issued (supply : Supply) : supply.Issued supply.fresh.2 supply.fresh.1 :=
  ⟨supply.fresh_not_spent, .inr ⟨supply.nextFree, Nat.lt_succ_self _, rfl⟩⟩

theorem freshMany_succ (supply : Supply) (count : Nat) :
    supply.freshMany (count + 1) =
      (supply.fresh.1 :: (supply.fresh.2.freshMany count).1,
        (supply.fresh.2.freshMany count).2) := rfl

theorem length_freshMany (supply : Supply) (count : Nat) :
    (supply.freshMany count).1.length = count := by
  induction count generalizing supply with
  | zero => rfl
  | succ count induction => rw [freshMany_succ, List.length_cons, induction]

theorem freshMany_extends (supply : Supply) (count : Nat) :
    supply.Extends (supply.freshMany count).2 := by
  induction count generalizing supply with
  | zero => exact .refl supply
  | succ count induction => exact supply.fresh_extends.trans (induction supply.fresh.2)

theorem freshMany_issued (supply : Supply) (count : Nat) :
    ∀ name ∈ (supply.freshMany count).1, supply.Issued (supply.freshMany count).2 name := by
  induction count generalizing supply with
  | zero => exact fun name member => nomatch member
  | succ count induction =>
      intro name member
      rw [freshMany_succ] at member ⊢
      rcases List.mem_cons.mp member with rfl | member
      · exact supply.fresh_issued.later (supply.fresh.2.freshMany_extends count)
      · exact (induction supply.fresh.2 name member).earlier supply.fresh_extends

/-- The only name that a draw spends is the one it hands out. -/
theorem eq_fresh_of_issued {supply : Supply} {name : TyVar}
    (issued : supply.Issued supply.fresh.2 name) : name = supply.fresh.1 := by
  obtain ⟨notSpent, reserved | ⟨number, below, rfl⟩⟩ := issued
  · exact absurd (.inl reserved) notSpent
  · have atLeast : supply.next ≤ number := by
      rcases Nat.lt_or_ge number supply.next with passed | atLeast
      · exact absurd (.inr ⟨number, passed, rfl⟩) notSpent
      · exact atLeast
    have last : number = supply.nextFree := by
      rcases Nat.lt_or_eq_of_le (Nat.le_of_lt_succ below) with skipped | last
      · -- A number that the search has skipped is the number of a reserved name.
        have passedReserved := (supply.search_spec supply.reserved.size supply.next).2.1
        exact absurd (.inl (passedReserved number atLeast skipped)) notSpent
      · exact last
    rw [last]
    rfl

/-- Names that are drawn one after the other are distinct. -/
theorem nodup_freshMany (supply : Supply) (count : Nat) :
    (supply.freshMany count).1.Nodup := by
  induction count generalizing supply with
  | zero => exact .nil
  | succ count induction =>
      rw [freshMany_succ]
      refine List.nodup_cons.mpr ⟨?_, induction supply.fresh.2⟩
      intro member
      exact (freshMany_issued supply.fresh.2 count _ member).1 supply.fresh_issued.2

/-! ## Sequences of draws -/

/-- Handing out the given names, one after the other, leads from one state of a
supply to another. -/
inductive Draws : Supply → List TyVar → Supply → Prop where
  | nil {supply : Supply} : Draws supply [] supply
  | cons {supply after : Supply} {names : List TyVar} :
      Draws supply.fresh.2 names after →
      Draws supply (supply.fresh.1 :: names) after

theorem freshMany_draws (supply : Supply) (count : Nat) :
    supply.Draws (supply.freshMany count).1 (supply.freshMany count).2 := by
  induction count generalizing supply with
  | zero => exact .nil
  | succ count induction =>
      rw [freshMany_succ]
      exact .cons (induction supply.fresh.2)

theorem Draws.single (supply : Supply) : supply.Draws [supply.fresh.1] supply.fresh.2 :=
  .cons .nil

theorem Draws.append {before middle after : Supply} {names others : List TyVar}
    (first : before.Draws names middle) (second : middle.Draws others after) :
    before.Draws (names ++ others) after := by
  induction first with
  | nil => exact second
  | cons _ induction => exact .cons (induction second)

theorem Draws.extends {before after : Supply} {names : List TyVar}
    (draws : before.Draws names after) : before.Extends after := by
  induction draws with
  | nil => exact .refl _
  | cons _ induction => exact (fresh_extends _).trans induction

/-- The names drawn are those that are spent at the end and were not at the start. -/
theorem Draws.mem_iff_issued {before after : Supply} {names : List TyVar}
    (draws : before.Draws names after) {name : TyVar} :
    name ∈ names ↔ before.Issued after name := by
  induction draws with
  | nil =>
      constructor
      · intro member
        cases member
      · intro issued
        exact absurd issued.2 issued.1
  | @cons supply after names later induction =>
      rw [List.mem_cons, induction]
      constructor
      · rintro (rfl | issued)
        · exact supply.fresh_issued.later later.extends
        · exact issued.earlier supply.fresh_extends
      · intro issued
        by_cases spent : supply.fresh.2.Spent name
        · exact .inl (eq_fresh_of_issued ⟨issued.1, spent⟩)
        · exact .inr ⟨spent, issued.2⟩

end Supply

/-! ## Renamings -/

/-- If no name is used twice for new names, then old names can be read off them. -/
theorem exists_restore (olds news : List TyVar) (distinct : news.Nodup) :
    ∃ restore : TyVar → TyVar, ∀ old new, (old, new) ∈ olds.zip news → restore new = old := by
  induction olds generalizing news with
  | nil => exact ⟨id, fun old new member => nomatch member⟩
  | cons firstOld olds induction =>
      cases distinct with
      | nil => exact ⟨id, fun old new member => nomatch member⟩
      | @cons firstNew news firstDistinct distinct =>
          obtain ⟨restore, restores⟩ := induction news distinct
          refine ⟨fun new => if new = firstNew then firstOld else restore new, ?_⟩
          intro old new member
          rw [List.zip_cons_cons, List.mem_cons] at member
          rcases member with first | later
          · cases first
            exact if_pos rfl
          · have different : new ≠ firstNew :=
              Ne.symm (firstDistinct new (List.of_mem_zip later).2)
            exact (if_neg different).trans (restores old new later)

theorem exists_mem_zip {olds news : List TyVar} (lengths : olds.length = news.length)
    {old : TyVar} (member : old ∈ olds) : ∃ new, (old, new) ∈ olds.zip news := by
  have listed : old ∈ (olds.zip news).map Prod.fst := by
    rwa [List.map_fst_zip (Nat.le_of_eq lengths)]
  obtain ⟨⟨_, new⟩, inZip, rfl⟩ := List.mem_map.mp listed
  exact ⟨new, inZip⟩

/-- Finitely many names can be renamed, reversibly, to names outside a finite set. -/
theorem NameSet.exists_renaming (avoided : NameSet) (names : List TyVar) :
    ∃ rename restore : TyVar → TyVar,
      ∀ name ∈ names, rename name ∉ avoided ∧ restore (rename name) = name := by
  let supply : Supply := { reserved := avoided }
  let news := (supply.freshMany names.length).1
  have lengths : names.length = news.length := (supply.length_freshMany _).symm
  obtain ⟨restore, restores⟩ := exists_restore names news (supply.nodup_freshMany _)
  have paired : ∀ name, ∃ new, name ∈ names → (name, new) ∈ names.zip news := by
    intro name
    by_cases member : name ∈ names
    · obtain ⟨new, inZip⟩ := exists_mem_zip lengths member
      exact ⟨new, fun _ => inZip⟩
    · exact ⟨name, fun member' => absurd member' member⟩
  obtain ⟨rename, renames⟩ := Classical.skolem.mp paired
  refine ⟨rename, restore, fun name member => ⟨?_, restores _ _ (renames name member)⟩⟩
  intro avoidedMember
  have drawn : rename name ∈ news := (List.of_mem_zip (renames name member)).2
  exact (supply.freshMany_issued _ _ drawn).1 (.inl avoidedMember)

end LetPoly
