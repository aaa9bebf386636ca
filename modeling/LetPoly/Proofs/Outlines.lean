import LetPoly.Derivation
import LetPoly.Proofs.Legibility
import Mathlib.Data.List.Forall2

/-!
# Printed derivations

A derivation is printed as a list of lines.  All that is left of the tree in them is how far
each line is indented, and there are no marks where the premises of a node begin or end.  Still
the text determines the tree and the line of every node (`Derivation.SameOutline`), provided
that no text has a line break and no rule begins with a blank.  What it does not determine is
how a line is divided into rule, input and output.

The lines of several derivations are read back by induction over the forest, with whatever
follows them.  They end where a line is indented less than the roots are
(`Derivation.Returns`), and the lines of the premises of a node end at the latest where its
next sibling begins.
-/

namespace LetPoly

namespace Derivation

/-! ## Outlines -/

/-- The line of the last rule, without indentation. -/
def line : Derivation → String
  | node rule input output _ => rule ++ ": " ++ input ++ " " ++ output

/-- The derivations of the premises of the last rule. -/
def premises : Derivation → List Derivation
  | node _ _ _ premises => premises

/-- What holds of no derivations, and of a derivation and others if it holds of its premises and
of the others, holds of all lists of derivations. -/
theorem forest_induction {motive : List Derivation → Prop} (nil : motive [])
    (cons : ∀ derivation remaining, motive derivation.premises → motive remaining →
      motive (derivation :: remaining)) :
    ∀ derivations, motive derivations
  | [] => nil
  | node rule input output premises :: remaining =>
      cons (node rule input output premises) remaining (forest_induction nil cons premises)
        (forest_induction nil cons remaining)

/-- Two derivations have the same lines at the same places: as many premises at each node, in
the same order. -/
inductive SameOutline : Derivation → Derivation → Prop where
  | intro {left right : Derivation} :
      left.line = right.line →
      List.Forall₂ SameOutline left.premises right.premises →
      SameOutline left right

/-- At every node each text stays on one line and the rule does not begin with a blank.  A
rule may be empty, for then its line begins with a colon. -/
inductive Printable : Derivation → Prop where
  | node {rule input output : String} {premises : List Derivation} :
      rule.toList.head? ≠ some ' ' →
      '\n' ∉ rule.toList →
      '\n' ∉ input.toList →
      '\n' ∉ output.toList →
      (∀ premise ∈ premises, Printable premise) →
      Printable (.node rule input output premises)

namespace Printable

variable {derivation : Derivation}

theorem premises (printable : derivation.Printable) :
    ∀ premise ∈ derivation.premises, premise.Printable := by
  cases printable with
  | node _ _ _ _ ofPremises => exact ofPremises

theorem head?_line (printable : derivation.Printable) :
    derivation.line.toList.head? ≠ some ' ' := by
  cases printable with
  | @node rule input output _ notBlank _ _ _ _ =>
      cases beginning : rule.toList with
      | nil => simp [line, beginning]
      | cons char others =>
          rw [beginning] at notBlank
          simpa [line, beginning] using notBlank

theorem not_mem_line (printable : derivation.Printable) : '\n' ∉ derivation.line.toList := by
  cases printable with
  | node _ ofRule ofInput ofOutput _ => simp [line, ofRule, ofInput, ofOutput]

end Printable

/-! ## Indentation -/

/-- A line at a depth. -/
def indented (depth : Nat) (line : String) : String :=
  String.ofList (List.replicate (2 * depth) ' ') ++ line

/-- The number of blanks that a line begins with. -/
def margin (line : String) : Nat :=
  (line.toList.takeWhile (· == ' ')).length

theorem margin_indented {line : String} (notBlank : line.toList.head? ≠ some ' ')
    (depth : Nat) : margin (indented depth line) = 2 * depth := by
  have blanks : ∀ char ∈ List.replicate (2 * depth) ' ', (char == ' ') = true := by simp
  have outside : ∀ char ∈ line.toList.head?, (char == ' ') = false := by
    intro char first
    simpa using fun blank : char = ' ' => notBlank (blank ▸ first)
  rw [margin, indented, String.toList_append, String.toList_ofList,
    Text.takeWhile_append_eq blanks outside, List.length_replicate]

theorem indented_inj {depth : Nat} {first second : String} :
    indented depth first = indented depth second ↔ first = second := by
  simp [indented]

theorem not_mem_indented {line : String} (oneLine : '\n' ∉ line.toList) (depth : Nat) :
    '\n' ∉ (indented depth line).toList := by
  simp [indented, oneLine]

theorem lines_eq_cons (depth : Nat) (derivation : Derivation) :
    derivation.lines depth =
      indented depth derivation.line :: linesOfAll (depth + 1) derivation.premises := by
  cases derivation with
  | node rule input output premises =>
      simp [lines, indented, line, Derivation.premises, String.append_assoc]

theorem linesOfAll_nil (depth : Nat) : linesOfAll depth [] = [] := by
  rw [linesOfAll]

theorem linesOfAll_cons (depth : Nat) (derivation : Derivation) (remaining : List Derivation) :
    linesOfAll depth (derivation :: remaining) =
      indented depth derivation.line ::
        (linesOfAll (depth + 1) derivation.premises ++ linesOfAll depth remaining) := by
  rw [linesOfAll, lines_eq_cons, List.cons_append]

/-- No line breaks in two. -/
theorem not_mem_of_mem_linesOfAll {derivations : List Derivation} {depth : Nat} {line : String}
    (printable : ∀ derivation ∈ derivations, derivation.Printable)
    (member : line ∈ linesOfAll depth derivations) : '\n' ∉ line.toList := by
  induction derivations using forest_induction generalizing depth with
  | nil => simp [linesOfAll_nil] at member
  | cons derivation remaining premisesInduction remainingInduction =>
      have ofFirst := printable derivation (.head _)
      rw [linesOfAll_cons, List.mem_cons, List.mem_append] at member
      rcases member with rfl | inPremises | inRemaining
      · exact not_mem_indented ofFirst.not_mem_line depth
      · exact premisesInduction ofFirst.premises inPremises
      · exact remainingInduction (fun other later => printable other (.tail _ later)) inRemaining

/-! ## Reading back -/

/-- There are no lines left, or the next one is indented less than the roots at a depth. -/
def Returns (depth : Nat) (rest : List String) : Prop :=
  ∀ line ∈ rest.head?, margin line < 2 * depth

theorem returns_nil (depth : Nat) : Returns depth [] :=
  fun _ member => nomatch member

/-- A root at a depth does not end the lines at that depth. -/
theorem not_returns_cons {derivation : Derivation} (printable : derivation.Printable)
    (depth : Nat) (remaining : List Derivation) (rest : List String) :
    ¬ Returns depth (linesOfAll depth (derivation :: remaining) ++ rest) := by
  intro returns
  rw [linesOfAll_cons] at returns
  have smaller := returns _ rfl
  rw [margin_indented printable.head?_line] at smaller
  omega

/-- The lines one level down end where the siblings come, or what follows these. -/
theorem Returns.after_premises {depth : Nat} {rest : List String} (returns : Returns depth rest)
    {remaining : List Derivation}
    (printable : ∀ derivation ∈ remaining, derivation.Printable) :
    Returns (depth + 1) (linesOfAll depth remaining ++ rest) := by
  intro line next
  cases remaining with
  | nil =>
      have smaller := returns line next
      omega
  | cons sibling others =>
      rw [linesOfAll_cons, List.cons_append, List.head?_cons, Option.mem_some] at next
      rw [← next, margin_indented (printable sibling (.head _)).head?_line]
      omega

/-- The lines of several derivations determine their outlines, and where these lines end in
what follows. -/
theorem sameOutline_of_linesOfAll {left right : List Derivation} {depth : Nat}
    {rest more : List String} (leftPrintable : ∀ derivation ∈ left, derivation.Printable)
    (rightPrintable : ∀ derivation ∈ right, derivation.Printable)
    (restReturns : Returns depth rest) (moreReturns : Returns depth more)
    (equal : linesOfAll depth left ++ rest = linesOfAll depth right ++ more) :
    List.Forall₂ SameOutline left right ∧ rest = more := by
  induction left using forest_induction generalizing right depth rest more with
  | nil =>
      cases right with
      | nil => exact ⟨.nil, equal⟩
      | cons other others =>
          rw [linesOfAll_nil, List.nil_append] at equal
          rw [equal] at restReturns
          exact absurd restReturns (not_returns_cons (rightPrintable other (.head _)) _ _ _)
  | cons first remaining premisesInduction remainingInduction =>
      cases right with
      | nil =>
          rw [linesOfAll_nil, List.nil_append] at equal
          rw [← equal] at moreReturns
          exact absurd moreReturns (not_returns_cons (leftPrintable first (.head _)) _ _ _)
      | cons other others =>
          have remainingPrintable := fun derivation later =>
            leftPrintable derivation (.tail _ later)
          have othersPrintable := fun derivation later =>
            rightPrintable derivation (.tail _ later)
          simp only [linesOfAll_cons, List.cons_append, List.append_assoc] at equal
          obtain ⟨sameLine, afterLine⟩ := List.cons.inj equal
          -- The premises come first, and their lines end where the siblings begin.
          obtain ⟨ofPremises, afterPremises⟩ := premisesInduction
            (leftPrintable first (.head _)).premises (rightPrintable other (.head _)).premises
            (restReturns.after_premises remainingPrintable)
            (moreReturns.after_premises othersPrintable) afterLine
          obtain ⟨ofRemaining, afterRemaining⟩ := remainingInduction remainingPrintable
            othersPrintable restReturns moreReturns afterPremises
          exact ⟨.cons (.intro (indented_inj.mp sameLine) ofPremises) ofRemaining, afterRemaining⟩

theorem linesOfAll_eq_of_sameOutline {left right : List Derivation} {depth : Nat}
    (sameOutlines : List.Forall₂ SameOutline left right) :
    linesOfAll depth left = linesOfAll depth right := by
  induction left using forest_induction generalizing right depth with
  | nil =>
      cases sameOutlines with
      | nil => rfl
  | cons first remaining premisesInduction remainingInduction =>
      cases sameOutlines with
      | cons ofFirst ofRemaining =>
          cases ofFirst with
          | intro sameLine ofPremises =>
              rw [linesOfAll_cons, linesOfAll_cons, sameLine, premisesInduction ofPremises,
                remainingInduction ofRemaining]

/-- Lines without breaks can be told from the text that they are joined to. -/
theorem legible_lines :
    Text.Legible (fun lines : List String => "\n".intercalate lines)
      (fun lines => lines ≠ [] ∧ ∀ line ∈ lines, '\n' ∉ line.toList) [] := by
  have oneLine : Text.Legible (fun line : String => line) (fun line => '\n' ∉ line.toList)
      ['\n'] := by
    intro left right leftAdmitted rightAdmitted
    have inside : ∀ {line : String}, '\n' ∉ line.toList →
        ∀ char ∈ line.toList, (char != '\n') = true := by
      intro line absent char member
      simpa using fun same : char = '\n' => absent (same ▸ member)
    exact Text.legible_of_all (by simp) left right (inside leftAdmitted) (inside rightAdmitted)
  simpa using oneLine.joined rfl (by simp)

/-- The printed text of a derivation determines its outline, and nothing else of it: two texts
are equal if and only if the derivations have the same lines at the same places. -/
theorem render_determines_outline (left right : Derivation) (leftPrintable : left.Printable)
    (rightPrintable : right.Printable) :
    left.render = right.render ↔ left.SameOutline right := by
  have alone : ∀ derivation : Derivation,
      derivation.lines 0 = linesOfAll 0 [derivation] := by simp [linesOfAll]
  constructor
  · intro equal
    have admitted : ∀ {derivation : Derivation}, derivation.Printable →
        linesOfAll 0 [derivation] ≠ [] ∧
          ∀ line ∈ linesOfAll 0 [derivation], '\n' ∉ line.toList := by
      intro derivation printable
      refine ⟨by simp [linesOfAll_cons], fun line member => ?_⟩
      exact not_mem_of_mem_linesOfAll (List.forall_mem_singleton.mpr printable) member
    rw [render, render, alone, alone] at equal
    have sameLines := legible_lines.injective (admitted leftPrintable) (admitted rightPrintable) equal
    have outlines := sameOutline_of_linesOfAll (List.forall_mem_singleton.mpr leftPrintable)
      (List.forall_mem_singleton.mpr rightPrintable) (returns_nil 0) (returns_nil 0)
      (congrArg (· ++ []) sameLines)
    cases outlines.1 with
    | cons sameOutline _ => exact sameOutline
  · intro sameOutline
    rw [render, render, alone, alone, linesOfAll_eq_of_sameOutline (.cons sameOutline .nil)]

/-- An application with two premises. -/
def branching : Derivation :=
  .node "T-App" "⊢ f x ⇒" "Int"
    [.node "T-Var" "⊢ f ⇒" "Int -> Int" [], .node "T-Var" "⊢ x ⇒" "Int" []]

/-- The same lines, but the last one is a premise of the second. -/
def chained : Derivation :=
  .node "T-App" "⊢ f x ⇒" "Int"
    [.node "T-Var" "⊢ f ⇒" "Int -> Int" [.node "T-Var" "⊢ x ⇒" "Int" []]]

/-- The same lines at the same places as in `branching`, with the arrow in the outputs. -/
def redivided : Derivation :=
  .node "T-App" "⊢ f x" "⇒ Int"
    [.node "T-Var" "⊢ f" "⇒ Int -> Int" [], .node "T-Var" "⊢ x" "⇒ Int" []]

/-- Of three derivations with the same lines the text tells apart those that differ in shape. -/
theorem render_determines_outline_branching :
    branching.Printable ∧ chained.Printable ∧ redivided.Printable ∧
    branching.SameOutline redivided ∧ branching.render = redivided.render ∧
    branching.render ≠ chained.render := by
  have node : ∀ {rule input output : String} {premises : List Derivation},
      rule.toList.head? ≠ some ' ' ∧ '\n' ∉ rule.toList ++ input.toList ++ output.toList →
      (∀ premise ∈ premises, premise.Printable) →
      (Derivation.node rule input output premises).Printable := by
    intro rule input output premises texts ofPremises
    simp only [List.mem_append, not_or] at texts
    exact .node texts.1 texts.2.1.1 texts.2.1.2 texts.2.2 ofPremises
  have ofBranching : branching.Printable := by
    refine node (by decide) (List.forall_mem_cons.mpr ⟨node (by decide) (by simp), ?_⟩)
    exact List.forall_mem_singleton.mpr (node (by decide) (by simp))
  have ofChained : chained.Printable := by
    refine node (by decide) (List.forall_mem_singleton.mpr (node (by decide) ?_))
    exact List.forall_mem_singleton.mpr (node (by decide) (by simp))
  have ofRedivided : redivided.Printable := by
    refine node (by decide) (List.forall_mem_cons.mpr ⟨node (by decide) (by simp), ?_⟩)
    exact List.forall_mem_singleton.mpr (node (by decide) (by simp))
  have sameText : branching.render = redivided.render := by decide +kernel
  refine ⟨ofBranching, ofChained, ofRedivided,
    (render_determines_outline _ _ ofBranching ofRedivided).mp sameText, sameText, ?_⟩
  intro equal
  cases (render_determines_outline _ _ ofBranching ofChained).mp equal with
  | intro _ ofPremises => simpa [branching, chained, premises] using ofPremises.length_eq

end Derivation

end LetPoly
