import LetPoly.Proofs.Runs

/-!
# The life of a supply

The owner of a supply makes requests, as many as they like and in any order: to reserve
names, to draw a name, to draw a name as a type, and to instantiate a scheme, which draws a
name for each place in the list of quantified variables.  `Supply.history` writes down what
happens to the supply meanwhile, one entry for each reservation and for each draw.

`Supply.Passes` says which entries lead from one state of a supply to another.  A draw hands
out a name that was not spent and spends it, a reservation spends what is reserved, and
nothing ever makes a spent name available again.  What holds of whole histories follows from
these steps by induction on `Passes`.

The bound on the search is a fact about the loop that tries one candidate after the other and
knows of no budget.  `Supply.Scan` is that loop, and `Supply.scan_nextFree` says that it ends.
-/

namespace LetPoly

namespace Supply

/-! ## The search as a loop -/

/-- Trying the candidates from a number on, one after the other and until one is not
reserved, ends at the number `found`; `tried` candidates have been looked at. -/
inductive Scan (supply : Supply) : (number tried found : Nat) → Prop where
  | stop {number : Nat} :
      supply.candidate number ∉ supply.reserved →
      Scan supply number 1 number
  | skip {number tried found : Nat} :
      supply.candidate number ∈ supply.reserved →
      Scan supply (number + 1) tried found →
      Scan supply number (tried + 1) found

/-- The loop passes over reserved candidates only. -/
theorem Scan.reserved_of_passed {supply : Supply} {number tried found : Nat}
    (scan : supply.Scan number tried found) :
    ∀ passed, number ≤ passed → passed < found →
      supply.candidate passed ∈ supply.reserved := by
  induction scan with
  | stop free =>
      intro passed atLeast below
      omega
  | skip reserved later induction =>
      intro passed atLeast below
      rcases Nat.eq_or_lt_of_le atLeast with same | after
      · exact same ▸ reserved
      · exact induction passed after below

/-- A search whose budget is large enough is a run of the loop. -/
theorem scan_search {supply : Supply} {budget number : Nat}
    (free : supply.candidate (supply.search budget number) ∉ supply.reserved) :
    ∃ tried, supply.Scan number tried (supply.search budget number) ∧ tried ≤ budget + 1 := by
  induction budget generalizing number with
  | zero => exact ⟨1, .stop free, Nat.le_refl _⟩
  | succ budget induction =>
      rw [search] at free ⊢
      split at free
      next reserved =>
        obtain ⟨tried, scan, bound⟩ := induction free
        rw [if_pos reserved]
        exact ⟨tried + 1, .skip reserved scan, by omega⟩
      next free =>
        rw [if_neg free]
        exact ⟨1, .stop free, by omega⟩

/-- The loop ends, after one candidate more than there are reserved names at the latest. -/
theorem scan_nextFree (supply : Supply) :
    ∃ tried, supply.Scan supply.next tried supply.nextFree ∧
      tried ≤ supply.reserved.size + 1 :=
  scan_search supply.candidate_nextFree_not_mem

/-! ## Requests -/

/-- What the owner of a supply can ask for. -/
inductive Request where
  | reserve (names : NameSet)
  | drawName
  | drawType
  | instantiate (scheme : Scheme)

/-- What the owner gets. -/
inductive Reply where
  | done
  | name (name : TyVar)
  | type (ty : Ty)

/-- Do what is asked for. -/
def Request.serve : Request → Inference Reply
  | reserve names => do
      .reserve names
      return .done
  | drawName => return .name (← .fresh)
  | drawType => return .type (.var (← .fresh))
  | instantiate scheme => return .type (← scheme.instantiate)

/-- How the names that were drawn for a request make up the reply. -/
inductive Request.Answers : Request → List TyVar → Reply → Prop where
  | reserve {names : NameSet} : Answers (.reserve names) [] .done
  | drawName {name : TyVar} : Answers .drawName [name] (.name name)
  | drawType {name : TyVar} : Answers .drawType [name] (.type (.var name))
  | instantiate {scheme : Scheme} {names : List TyVar} :
      names.length = scheme.vars.length →
      Answers (.instantiate scheme) names
        (.type ((Subst.ofList (scheme.vars.zip (names.map .var))).apply scheme.ty))

/-! ## Histories -/

/-- One thing that happens to a supply. -/
inductive Entry where
  | reserved (names : NameSet)
  | issued (before : Supply) (name : TyVar) (after : Supply)

/-- The name that an entry hands out, if it hands out one. -/
def Entry.name? : Entry → Option TyVar
  | reserved _ => none
  | issued _ name _ => some name

/-- The names that are handed out, in order. -/
def issuedNames (entries : List Entry) : List TyVar :=
  entries.filterMap Entry.name?

/-- The entries of a number of draws. -/
def drawing (supply : Supply) : Nat → List Entry
  | 0 => []
  | count + 1 => .issued supply supply.fresh.1 supply.fresh.2 :: supply.fresh.2.drawing count

/-- The entries of a request. -/
def Request.entries : Request → Supply → List Entry
  | reserve names, _ => [.reserved names]
  | drawName, supply => supply.drawing 1
  | drawType, supply => supply.drawing 1
  | instantiate scheme, supply => supply.drawing scheme.vars.length

/-- The entries of requests that are made one after the other. -/
def history (supply : Supply) : List Request → List Entry
  | [] => []
  | request :: later => request.entries supply ++ history (request.serve.run supply).2 later

theorem issuedNames_drawing (supply : Supply) (count : Nat) :
    issuedNames (supply.drawing count) = (supply.freshMany count).1 := by
  induction count generalizing supply with
  | zero => rfl
  | succ count induction =>
      rw [freshMany_succ, ← induction]
      rfl

/-- Every request is answered, with the names that its entries hand out. -/
theorem Request.exists_answer (request : Request) (supply : Supply) :
    ∃ reply, (request.serve.run supply).1.outcome = .ok reply ∧
      request.Answers (issuedNames (request.entries supply)) reply := by
  cases request with
  | reserve names => exact ⟨_, rfl, .reserve⟩
  | drawName => exact ⟨_, rfl, .drawName⟩
  | drawType => exact ⟨_, rfl, .drawType⟩
  | instantiate scheme =>
      refine ⟨_, rfl, ?_⟩
      rw [entries, issuedNames_drawing]
      exact .instantiate (supply.length_freshMany _)

/-! ## From one state to another -/

/-- The entries that lead from one state of a supply to another. -/
inductive Passes : Supply → List Entry → Supply → Prop where
  | nil {supply : Supply} : Passes supply [] supply
  | reserved {supply after : Supply} {names : NameSet} {entries : List Entry} :
      Passes (supply.reserve names) entries after →
      Passes supply (.reserved names :: entries) after
  | issued {supply after : Supply} {entries : List Entry} :
      Passes supply.fresh.2 entries after →
      Passes supply (.issued supply supply.fresh.1 supply.fresh.2 :: entries) after

namespace Passes

theorem append {before middle after : Supply} {earlier later : List Entry}
    (first : before.Passes earlier middle) (second : middle.Passes later after) :
    before.Passes (earlier ++ later) after := by
  induction first with
  | nil => exact second
  | reserved _ induction => exact .reserved (induction second)
  | issued _ induction => exact .issued (induction second)

/-- A supply goes through a state between any two entries. -/
theorem exists_between {before after : Supply} {earlier later : List Entry}
    (passes : before.Passes (earlier ++ later) after) :
    ∃ middle, before.Passes earlier middle ∧ middle.Passes later after := by
  induction earlier generalizing before with
  | nil => exact ⟨before, .nil, passes⟩
  | cons entry earlier induction =>
      cases passes with
      | reserved rest =>
          obtain ⟨middle, first, second⟩ := induction rest
          exact ⟨middle, .reserved first, second⟩
      | issued rest =>
          obtain ⟨middle, first, second⟩ := induction rest
          exact ⟨middle, .issued first, second⟩

end Passes

theorem drawing_passes (supply : Supply) (count : Nat) :
    supply.Passes (supply.drawing count) (supply.freshMany count).2 := by
  induction count generalizing supply with
  | zero => exact .nil
  | succ count induction => exact .issued (induction supply.fresh.2)

theorem Request.passes (request : Request) (supply : Supply) :
    supply.Passes (request.entries supply) (request.serve.run supply).2 := by
  cases request with
  | reserve names => exact .reserved .nil
  | drawName => exact supply.drawing_passes 1
  | drawType => exact supply.drawing_passes 1
  | instantiate scheme => exact supply.drawing_passes scheme.vars.length

theorem exists_history_passes (supply : Supply) (requests : List Request) :
    ∃ after, supply.Passes (supply.history requests) after := by
  induction requests generalizing supply with
  | nil => exact ⟨supply, .nil⟩
  | cons request later induction =>
      obtain ⟨after, passes⟩ := induction (request.serve.run supply).2
      exact ⟨after, (request.passes supply).append passes⟩

/-! ## What passes through a history -/

/-- The running number after the last draw of a history. -/
def counterAfter (start : Nat) (entries : List Entry) : Nat :=
  entries.foldl (fun counter entry =>
    match entry with
    | .reserved _ => counter
    | .issued _ _ after => after.next) start

/-- A name is reserved at the start or by an entry. -/
def ReservedAfter (supply : Supply) (entries : List Entry) (name : TyVar) : Prop :=
  name ∈ supply.reserved ∨ ∃ names, .reserved names ∈ entries ∧ name ∈ names

namespace Passes

variable {before after : Supply} {entries : List Entry}

theorem stem_eq (passes : before.Passes entries after) : after.stem = before.stem := by
  induction passes with
  | nil => rfl
  | reserved _ induction => exact induction
  | issued _ induction => exact induction

theorem next_eq (passes : before.Passes entries after) :
    after.next = counterAfter before.next entries := by
  induction passes with
  | nil => rfl
  | reserved _ induction => exact induction
  | issued _ induction => exact induction

theorem reservedAfter (passes : before.Passes entries after) {name : TyVar}
    (reserved : name ∈ after.reserved) : before.ReservedAfter entries name := by
  induction passes with
  | nil => exact .inl reserved
  | @reserved supply _ names entries _ induction =>
      rcases induction reserved with atStart | ⟨others, entry, member⟩
      · rcases Std.ExtTreeSet.mem_union_iff.mp atStart with old | new
        · exact .inl old
        · exact .inr ⟨names, .head _, new⟩
      · exact .inr ⟨others, .tail _ entry, member⟩
  | issued _ induction =>
      rcases induction reserved with atStart | ⟨others, entry, member⟩
      · exact .inl atStart
      · exact .inr ⟨others, .tail _ entry, member⟩

/-- No name is handed out that was spent at any time before. -/
theorem not_spent_of_issued (passes : before.Passes entries after) {name : TyVar}
    (issued : name ∈ issuedNames entries) : ¬ before.Spent name := by
  induction passes with
  | nil => cases issued
  | reserved _ induction => exact (not_spent_of_not_spent_reserve (induction issued)).2
  | @issued supply _ entries _ induction =>
      rcases List.mem_cons.mp issued with rfl | later
      · exact supply.fresh_not_spent
      · intro spent
        exact induction later (supply.fresh_extends.spent spent)

/-- No name is handed out twice. -/
theorem nodup_issuedNames (passes : before.Passes entries after) :
    (issuedNames entries).Nodup := by
  induction passes with
  | nil => exact .nil
  | reserved _ induction => exact induction
  | @issued supply _ entries rest induction =>
      refine List.nodup_cons.mpr ⟨fun again => ?_, induction⟩
      exact rest.not_spent_of_issued again supply.fresh_issued.2

/-- No name is handed out after it has been reserved. -/
theorem not_issued_of_reserved {earlier later : List Entry} {names : NameSet}
    (passes : before.Passes (earlier ++ .reserved names :: later) after) {name : TyVar}
    (member : name ∈ names) : name ∉ issuedNames later := by
  obtain ⟨middle, _, rest⟩ := passes.exists_between
  cases rest with
  | reserved rest =>
      intro issued
      exact rest.not_spent_of_issued issued (spent_reserve member)

/-- The supply at a draw is what the entries before it have made of it: its number is the
one that the draw before has left, and nothing is reserved that no entry reserved. -/
theorem state_of_issued {earlier later : List Entry} {atDraw afterDraw : Supply} {name : TyVar}
    (passes : before.Passes (earlier ++ .issued atDraw name afterDraw :: later) after) :
    atDraw.next = counterAfter before.next earlier ∧ atDraw.stem = before.stem ∧
      (∀ other ∈ atDraw.reserved, before.ReservedAfter earlier other) ∧
      name = atDraw.fresh.1 ∧ afterDraw = atDraw.fresh.2 := by
  obtain ⟨middle, first, rest⟩ := passes.exists_between
  cases rest with
  | issued _ => exact ⟨first.next_eq, first.stem_eq, fun _ => first.reservedAfter, rfl, rfl⟩

end Passes

/-- Whatever is asked of a supply, it hands out no name twice and none that has been
reserved before.  Each draw starts from the number that the draw before it has left, and its
search ends after at most one candidate more than there are reserved names.  The name that it
finds has the number before the counter that it leaves, and all numbers that were passed over
since the draw before are those of reserved names. -/
theorem history_issues_once (supply : Supply) (requests : List Request) :
    (∀ (request : Request) (state : Supply),
      ∃ reply, (request.serve.run state).1.outcome = .ok reply ∧
        request.Answers (issuedNames (request.entries state)) reply) ∧
    (issuedNames (supply.history requests)).Nodup ∧
    (∀ name ∈ supply.reserved, name ∉ issuedNames (supply.history requests)) ∧
    (∀ earlier names later, supply.history requests = earlier ++ .reserved names :: later →
      ∀ name ∈ names, name ∉ issuedNames later) ∧
    ∀ earlier before name after later,
      supply.history requests = earlier ++ .issued before name after :: later →
      ∃ number tried,
        before.next = counterAfter supply.next earlier ∧
        before.Scan before.next tried number ∧ tried ≤ before.reserved.size + 1 ∧
        name = supply.stem ++ toString number ∧ after.next = number + 1 ∧
        ∀ skipped, before.next ≤ skipped → skipped < number →
          supply.ReservedAfter earlier (supply.stem ++ toString skipped) := by
  obtain ⟨last, passes⟩ := supply.exists_history_passes requests
  refine ⟨Request.exists_answer, passes.nodup_issuedNames, ?_, ?_, ?_⟩
  · intro name reserved issued
    exact passes.not_spent_of_issued issued (.inl reserved)
  · intro earlier names later split name member
    rw [split] at passes
    exact passes.not_issued_of_reserved member
  · intro earlier before name after later split
    rw [split] at passes
    obtain ⟨start, stem, reserved, rfl, rfl⟩ := passes.state_of_issued
    obtain ⟨tried, scan, bound⟩ := before.scan_nextFree
    have sameCandidate : before.candidate = supply.candidate := by
      funext number
      rw [candidate, candidate, stem]
    refine ⟨before.nextFree, tried, start, scan, bound, ?_, rfl, ?_⟩
    · exact congrFun sameCandidate before.nextFree
    · intro skipped atLeast below
      have passedOver := reserved _ (scan.reserved_of_passed skipped atLeast below)
      rwa [sameCandidate] at passedOver

/-- The first candidate is reserved. -/
def withoutFirst : Supply :=
  reserve {} (.ofList ["t0"])

theorem history_issues_once_withoutFirst :
    history {} [.reserve (.ofList ["t0"]), .drawName] =
        [.reserved (.ofList ["t0"]),
          .issued withoutFirst withoutFirst.fresh.1 withoutFirst.fresh.2] ∧
      withoutFirst.fresh.1 ≠ "t0" ∧
      ∃ number tried,
        withoutFirst.Scan 0 tried number ∧ tried ≤ withoutFirst.reserved.size + 1 ∧
        withoutFirst.fresh.1 = "t" ++ toString number ∧
        withoutFirst.fresh.2.next = number + 1 := by
  obtain ⟨_, _, _, notReserved, drawn⟩ :=
    history_issues_once {} [.reserve (.ofList ["t0"]), .drawName]
  refine ⟨rfl, fun same => ?_, ?_⟩
  · have skipped := notReserved [] _
      [.issued withoutFirst withoutFirst.fresh.1 withoutFirst.fresh.2] rfl "t0"
      (NameSet.mem_ofList.mpr (.head _))
    exact skipped (List.mem_singleton.mpr same.symm)
  · obtain ⟨number, tried, _, scan, bound, name, counter, _⟩ :=
      drawn [.reserved (.ofList ["t0"])] withoutFirst _ _ [] rfl
    exact ⟨number, tried, scan, bound, name, counter⟩

end Supply

end LetPoly
