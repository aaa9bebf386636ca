import LetPoly.Env

/-!
# Legible texts

The text of a type, a scheme, a substitution or an environment determines the value, provided
that names look like names.  A name that holds a blank or an arrow could be taken for syntax,
and one that spells a base type could be taken for it.

That the texts of two whole values differ is too weak to be proved by itself, because a text is
made of texts.  `Text.Legible` says more: even if something comes after it, a text can be cut
off and its value be told, as long as what comes after begins with one of a few marks.  In this
form the property passes from the parts of a value to the value.  Parts that are parted by a
mark (`Legible.pair`), lists with a separator (`Legible.joined`) and lists in braces
(`Legible.braced_injective`) are legible if their parts are.

Types are the one case of their own.  What stands to the left of an arrow is in parentheses or
is a single word (`Ty.operand`), so the first arrow outside of parentheses is the outermost one.
-/

namespace LetPoly

namespace Text

/-! ## Names -/

/-- The letters and digits of ASCII, and the underscore. -/
def isNameChar (char : Char) : Bool :=
  char.isAlphanum || char == '_'

/-- Whether a text is a single word. -/
def isWord (text : String) : Bool :=
  !text.isEmpty && text.toList.all isNameChar

/-- Whether a name is a word that no base type has for its text. -/
def isPlainName (name : String) : Bool :=
  isWord name && name != "Int" && name != "Bool"

theorem isPlainName_iff {name : String} :
    isPlainName name = true ↔ isWord name = true ∧ name ≠ "Int" ∧ name ≠ "Bool" := by
  simp [isPlainName, and_assoc]

theorem exists_cons_of_isWord {text : String} (word : isWord text = true) :
    ∃ char others, text.toList = char :: others ∧ isNameChar char = true := by
  obtain ⟨notEmpty, chars⟩ := Bool.and_eq_true_iff.mp word
  cases listed : text.toList with
  | nil =>
      rw [String.toList_eq_nil_iff.mp listed] at notEmpty
      cases notEmpty
  | cons char others =>
      exact ⟨char, others, rfl, List.all_eq_true.mp chars char (listed ▸ .head _)⟩

/-- A text begins with a parenthesis or as a name does. -/
def Begins (text : String) : Prop :=
  ∃ char others, text.toList = char :: others ∧ (char = '(' ∨ isNameChar char = true)

theorem Begins.append {text : String} (begins : Begins text) (after : String) :
    Begins (text ++ after) := by
  obtain ⟨char, others, beginning, allowed⟩ := begins
  exact ⟨char, others ++ after.toList, by rw [String.toList_append, beginning, List.cons_append],
    allowed⟩

theorem begins_of_isWord {text : String} (word : isWord text = true) : Begins text := by
  obtain ⟨char, others, beginning, isChar⟩ := exists_cons_of_isWord word
  exact ⟨char, others, beginning, .inr isChar⟩

/-! ## Legibility -/

/-- A text is over, or it goes on with one of the given marks. -/
def Continues (marks rest : List Char) : Prop :=
  ∀ char ∈ rest.head?, char ∈ marks

theorem continues_nil (marks : List Char) : Continues marks [] :=
  fun _ member => nomatch member

theorem continues_cons {marks rest : List Char} {char : Char} :
    Continues marks (char :: rest) ↔ char ∈ marks := by
  simp [Continues]

theorem Continues.mono {marks more rest : List Char} (continues : Continues marks rest)
    (subset : marks ⊆ more) : Continues more rest :=
  fun char member => subset (continues char member)

/-- The texts of the admitted values can be told apart, and cut off from what comes after, if
that begins with one of the given marks. -/
def Legible {α : Type} (text : α → String) (admits : α → Prop) (marks : List Char) : Prop :=
  ∀ left right, admits left → admits right → ∀ rest more,
    Continues marks rest → Continues marks more →
      (text left).toList ++ rest = (text right).toList ++ more → left = right ∧ rest = more

namespace Legible

variable {α β γ : Type} {text : α → String} {admits : α → Prop} {marks : List Char}

theorem injective (legible : Legible text admits marks) {left right : α}
    (leftAdmitted : admits left) (rightAdmitted : admits right)
    (equal : text left = text right) : left = right := by
  have nothing := continues_nil marks
  refine (legible left right leftAdmitted rightAdmitted [] [] nothing nothing ?_).1
  rw [equal]

theorem mono {fewer : List Char} (legible : Legible text admits marks) (subset : fewer ⊆ marks) :
    Legible text admits fewer :=
  fun left right leftAdmitted rightAdmitted rest more restContinues moreContinues =>
    legible left right leftAdmitted rightAdmitted rest more (restContinues.mono subset)
      (moreContinues.mono subset)

/-- Two parts, the first of which is legible before what parts them. -/
theorem pair {first : α → String} {second : β → String} (ofFirst : γ → α) (ofSecond : γ → β)
    {admitsFirst : α → Prop} {admitsSecond : β → Prop} {separator : String} {mark : Char}
    {others : List Char} (firstLegible : Legible first admitsFirst [mark])
    (secondLegible : Legible second admitsSecond marks)
    (begins : separator.toList = mark :: others)
    (determined : ∀ left right, ofFirst left = ofFirst right → ofSecond left = ofSecond right →
      left = right) :
    Legible (fun value => first (ofFirst value) ++ separator ++ second (ofSecond value))
      (fun value => admitsFirst (ofFirst value) ∧ admitsSecond (ofSecond value)) marks := by
  intro left right leftAdmitted rightAdmitted rest more restContinues moreContinues equal
  simp only [String.toList_append, begins, List.append_assoc, List.cons_append] at equal
  have atMark : ∀ {after}, Continues [mark] (mark :: after) :=
    continues_cons.mpr (List.mem_singleton.mpr rfl)
  obtain ⟨firstEqual, afterFirst⟩ := firstLegible _ _ leftAdmitted.1 rightAdmitted.1 _ _
    atMark atMark equal
  have afterSeparator := List.append_cancel_left (List.cons.inj afterFirst).2
  obtain ⟨secondEqual, restEqual⟩ := secondLegible _ _ leftAdmitted.2 rightAdmitted.2 _ _
    restContinues moreContinues afterSeparator
  exact ⟨determined left right firstEqual secondEqual, restEqual⟩

/-- What comes after the first item of a list with a separator. -/
def remainder (separator : String) (text : α → String) : List α → List Char
  | [] => []
  | item :: items =>
      separator.toList ++ (separator.intercalate ((item :: items).map text)).toList

theorem toList_intercalate_cons (separator : String) (text : α → String) (item : α)
    (items : List α) :
    (separator.intercalate ((item :: items).map text)).toList =
      (text item).toList ++ remainder separator text items := by
  cases items <;> simp [remainder]

/-- A list with a separator.  An item must be legible before the separator and before the end
of the list, and the two must not be confused. -/
theorem joined {separator : String} {mark : Char} {others : List Char}
    (legible : Legible text admits (mark :: marks)) (begins : separator.toList = mark :: others)
    (apart : mark ∉ marks) :
    Legible (fun items => separator.intercalate (items.map text))
      (fun items => items ≠ [] ∧ ∀ item ∈ items, admits item) marks := by
  have later : ∀ {items : List α} {rest : List Char}, Continues marks rest →
      Continues (mark :: marks) (remainder separator text items ++ rest) := by
    intro items rest continues
    cases items with
    | nil => exact continues.mono (List.subset_cons_self mark marks)
    | cons =>
        rw [remainder, begins]
        exact continues_cons.mpr (.head _)
  intro left
  induction left with
  | nil => exact fun _ leftAdmitted => absurd rfl leftAdmitted.1
  | cons leftItem leftItems induction =>
      intro right leftAdmitted rightAdmitted rest more restContinues moreContinues equal
      cases right with
      | nil => exact absurd rfl rightAdmitted.1
      | cons rightItem rightItems =>
          simp only [toList_intercalate_cons, List.append_assoc] at equal
          obtain ⟨rfl, afterItem⟩ := legible leftItem rightItem (leftAdmitted.2 _ (.head _))
            (rightAdmitted.2 _ (.head _)) _ _ (later restContinues) (later moreContinues) equal
          cases leftItems with
          | nil =>
              cases rightItems with
              | nil => exact ⟨rfl, afterItem⟩
              | cons =>
                  rw [remainder, remainder, begins, List.nil_append] at afterItem
                  rw [afterItem] at restContinues
                  exact absurd (continues_cons.mp restContinues) apart
          | cons =>
              cases rightItems with
              | nil =>
                  rw [remainder, remainder, begins, List.nil_append] at afterItem
                  rw [← afterItem] at moreContinues
                  exact absurd (continues_cons.mp moreContinues) apart
              | cons =>
                  rw [remainder, remainder, List.append_assoc, List.append_assoc] at afterItem
                  obtain ⟨itemsEqual, restEqual⟩ := induction _
                    ⟨List.cons_ne_nil _ _, fun item member => leftAdmitted.2 item (.tail _ member)⟩
                    ⟨List.cons_ne_nil _ _, fun item member => rightAdmitted.2 item (.tail _ member)⟩
                    rest more restContinues moreContinues (List.append_cancel_left afterItem)
                  exact ⟨congrArg _ itemsEqual, restEqual⟩

/-- A list in braces.  No item may begin like the end of the list. -/
theorem braced_injective (legible : Legible text admits [',', '\x7d'])
    (begins : ∀ item, admits item → Begins (text item)) {left right : List α}
    (leftAdmitted : ∀ item ∈ left, admits item)
    (rightAdmitted : ∀ item ∈ right, admits item)
    (equal : braced (left.map text) = braced (right.map text)) : left = right := by
  have atEnd : Continues ['\x7d'] ['\x7d'] := continues_cons.mpr (.head _)
  have inner : (", ".intercalate (left.map text)).toList ++ ['\x7d'] =
      (", ".intercalate (right.map text)).toList ++ ['\x7d'] := by
    have texts := congrArg String.toList equal
    simp only [braced, String.toList_append, List.append_assoc] at texts
    exact List.append_cancel_left texts
  -- An item before the end cannot be taken for the end.
  have notEnd : ∀ {item : α} {items : List α}, admits item →
      ['\x7d'] ≠ (", ".intercalate ((item :: items).map text)).toList ++ ['\x7d'] := by
    intro item items admitted same
    obtain ⟨char, others, beginning, allowed⟩ := begins item admitted
    rw [toList_intercalate_cons, beginning] at same
    rw [← (List.cons.inj same).1] at allowed
    exact absurd allowed (by decide)
  cases left with
  | nil =>
      cases right with
      | nil => rfl
      | cons item items => exact absurd inner (notEnd (rightAdmitted item (.head _)))
  | cons item items =>
      cases right with
      | nil => exact absurd inner.symm (notEnd (leftAdmitted item (.head _)))
      | cons other others =>
          exact (legible.joined rfl (by decide) _ _ ⟨List.cons_ne_nil _ _, leftAdmitted⟩
            ⟨List.cons_ne_nil _ _, rightAdmitted⟩ _ _ atEnd atEnd inner).1

end Legible

/-! ## Words -/

/-- A text over a class of characters is cut off where the next one is outside the class. -/
theorem takeWhile_append_eq {inside : Char → Bool} {text rest : List Char}
    (chars : ∀ char ∈ text, inside char = true)
    (outside : ∀ char ∈ rest.head?, inside char = false) :
    (text ++ rest).takeWhile inside = text := by
  rw [List.takeWhile_append_of_pos chars]
  cases rest with
  | nil => exact List.append_nil _
  | cons char others => simp [outside char rfl]

/-- Texts over a class of characters are legible before everything outside the class. -/
theorem legible_of_all {inside : Char → Bool} {marks : List Char}
    (parted : ∀ mark ∈ marks, inside mark = false) :
    Legible (fun text : String => text) (fun text => ∀ char ∈ text.toList, inside char = true)
      marks := by
  intro left right leftInside rightInside rest more restContinues moreContinues equal
  have texts : left.toList = right.toList := by
    calc left.toList
        = (left.toList ++ rest).takeWhile inside :=
          (takeWhile_append_eq leftInside fun char next => parted char (restContinues char next)).symm
      _ = (right.toList ++ more).takeWhile inside := by rw [equal]
      _ = right.toList :=
          takeWhile_append_eq rightInside fun char next => parted char (moreContinues char next)
  rw [texts] at equal
  exact ⟨String.toList_inj.mp texts, List.append_cancel_left equal⟩

/-- Words are legible before everything that cannot be part of a word. -/
theorem legible_word {marks : List Char} (parted : ∀ mark ∈ marks, isNameChar mark = false) :
    Legible (fun word : String => word) (fun word => isWord word = true) marks := by
  have chars : ∀ {word : String}, isWord word = true →
      ∀ char ∈ word.toList, isNameChar char = true :=
    fun word => List.all_eq_true.mp (Bool.and_eq_true_iff.mp word).2
  exact fun left right leftWord rightWord =>
    legible_of_all parted left right (chars leftWord) (chars rightWord)

end Text

open Text

/-! ## Types -/

namespace Ty

/-- All variables have plain names. -/
def Plain (ty : Ty) : Prop :=
  ∀ name ∈ ty.vars, isPlainName name = true

instance (ty : Ty) : Decidable ty.Plain :=
  decidable_of_iff (∀ name ∈ ty.vars.toList, isPlainName name = true)
    ⟨fun listed name member => listed name (Std.ExtTreeSet.mem_toList.mpr member),
      fun plain name member => plain name (Std.ExtTreeSet.mem_toList.mp member)⟩

theorem plain_arrow {domain codomain : Ty} :
    (arrow domain codomain).Plain ↔ domain.Plain ∧ codomain.Plain := by
  constructor
  · intro plain
    exact ⟨fun name member => plain name (mem_vars_arrow.mpr (.inl member)),
      fun name member => plain name (mem_vars_arrow.mpr (.inr member))⟩
  · rintro ⟨domainPlain, codomainPlain⟩ name member
    rcases mem_vars_arrow.mp member with inDomain | inCodomain
    · exact domainPlain name inDomain
    · exact codomainPlain name inCodomain

theorem plain_var {name : TyVar} : (var name).Plain ↔ isPlainName name = true := by
  simp [Plain]

/-- A type as it is written to the left of an arrow. -/
def operand (ty : Ty) : String :=
  parensIf ty.isArrow ty.render

theorem operand_of_not_arrow {ty : Ty} (notArrow : ty.isArrow = false) :
    ty.operand = ty.render := by
  rw [operand, notArrow, parensIf_false]

theorem toList_operand_of_arrow {ty : Ty} (isArrow : ty.isArrow = true) :
    ty.operand.toList = '(' :: (ty.render.toList ++ [')']) := by
  simp [operand, isArrow]

theorem toList_render_arrow (domain codomain : Ty) :
    (arrow domain codomain).render.toList =
      domain.operand.toList ++ ' ' :: '-' :: '>' :: ' ' :: codomain.render.toList := by
  simp [render, operand]

/-- A type that is no function type is written as a word. -/
theorem isWord_render {ty : Ty} (plain : ty.Plain) (notArrow : ty.isArrow = false) :
    isWord ty.render = true := by
  cases ty with
  | var name => exact (isPlainName_iff.mp (plain_var.mp plain)).1
  | arrow => cases notArrow
  | int => decide
  | bool => decide

theorem eq_of_render_eq {left right : Ty} (leftPlain : left.Plain) (rightPlain : right.Plain)
    (leftNotArrow : left.isArrow = false) (rightNotArrow : right.isArrow = false)
    (equal : left.render = right.render) : left = right := by
  have notBase : ∀ {name : TyVar}, (var name).Plain → name ≠ "Int" ∧ name ≠ "Bool" :=
    fun plain => (isPlainName_iff.mp (plain_var.mp plain)).2
  cases left with
  | var name =>
      cases right with
      | var other => exact congrArg var equal
      | arrow => cases rightNotArrow
      | int => exact absurd equal (notBase leftPlain).1
      | bool => exact absurd equal (notBase leftPlain).2
  | arrow => cases leftNotArrow
  | int =>
      cases right with
      | var other => exact absurd equal.symm (notBase rightPlain).1
      | arrow => cases rightNotArrow
      | int => rfl
      | bool => exact absurd equal (by decide)
  | bool =>
      cases right with
      | var other => exact absurd equal.symm (notBase rightPlain).2
      | arrow => cases rightNotArrow
      | int => exact absurd equal (by decide)
      | bool => rfl

/-- The marks that may come after a type. -/
def marks : List Char := [')', '/', ',', '\x7d']

/-- Operands are legible before a blank as well.  Those in parentheses are so because types are
legible before a closing one. -/
theorem eq_of_operand_append {left right : Ty} (leftPlain : left.Plain) (rightPlain : right.Plain)
    (inParens : left.isArrow = true → ∀ rest more, Continues marks rest → Continues marks more →
      left.render.toList ++ rest = right.render.toList ++ more → left = right ∧ rest = more)
    {rest more : List Char} (restContinues : Continues (' ' :: marks) rest)
    (moreContinues : Continues (' ' :: marks) more)
    (equal : left.operand.toList ++ rest = right.operand.toList ++ more) :
    left = right ∧ rest = more := by
  have notWord : ∀ {ty : Ty} {others rest : List Char}, ty.Plain → ty.isArrow = false →
      ty.operand.toList ++ rest ≠ '(' :: others := by
    intro ty others rest plain notArrow same
    obtain ⟨char, _, beginning, isChar⟩ := exists_cons_of_isWord (isWord_render plain notArrow)
    rw [operand_of_not_arrow notArrow, beginning] at same
    rw [(List.cons.inj same).1] at isChar
    exact absurd isChar (by decide)
  cases leftArrow : left.isArrow with
  | true =>
      rw [toList_operand_of_arrow leftArrow] at equal
      cases rightArrow : right.isArrow with
      | true =>
          rw [toList_operand_of_arrow rightArrow] at equal
          simp only [List.cons_append, List.append_assoc, List.nil_append] at equal
          have inner := (List.cons.inj equal).2
          have closed : ∀ {after}, Continues marks (')' :: after) := continues_cons.mpr (.head _)
          obtain ⟨same, afterParens⟩ := inParens leftArrow _ _ closed closed inner
          exact ⟨same, (List.cons.inj afterParens).2⟩
      | false => exact absurd equal.symm (notWord rightPlain rightArrow)
  | false =>
      cases rightArrow : right.isArrow with
      | true =>
          rw [toList_operand_of_arrow rightArrow] at equal
          exact absurd equal (notWord leftPlain leftArrow)
      | false =>
          rw [operand_of_not_arrow leftArrow, operand_of_not_arrow rightArrow] at equal
          have parted : ∀ mark ∈ ' ' :: marks, isNameChar mark = false := by
            simp [marks, isNameChar]
          obtain ⟨words, restEqual⟩ := legible_word parted _ _ (isWord_render leftPlain leftArrow)
            (isWord_render rightPlain rightArrow) _ _ restContinues moreContinues equal
          exact ⟨eq_of_render_eq leftPlain rightPlain leftArrow rightArrow words, restEqual⟩

theorem exists_arrow_of_isArrow {ty : Ty} (isArrow : ty.isArrow = true) :
    ∃ domain codomain, ty = arrow domain codomain := by
  cases ty with
  | arrow domain codomain => exact ⟨domain, codomain, rfl⟩
  | _ => cases isArrow

theorem not_continues_blank {rest : List Char} : ¬ Continues marks (' ' :: rest) := by
  rw [continues_cons]
  decide

/-- A type that is no function type is an operand and nothing else. -/
theorem eq_of_render_append {left : Ty} (leftNotArrow : left.isArrow = false) (right : Ty)
    (leftPlain : left.Plain) (rightPlain : right.Plain) (rest more : List Char)
    (restContinues : Continues marks rest) (moreContinues : Continues marks more)
    (equal : left.render.toList ++ rest = right.render.toList ++ more) :
    left = right ∧ rest = more := by
  have noParens : left.isArrow ≠ true := by simp [leftNotArrow]
  have restLater := restContinues.mono (List.subset_cons_self ' ' marks)
  rw [← operand_of_not_arrow leftNotArrow] at equal
  cases rightArrow : right.isArrow with
  | false =>
      rw [← operand_of_not_arrow rightArrow] at equal
      exact eq_of_operand_append leftPlain rightPlain (fun isArrow => absurd isArrow noParens)
        restLater (moreContinues.mono (List.subset_cons_self ' ' marks)) equal
  | true =>
      obtain ⟨domain, codomain, rfl⟩ := exists_arrow_of_isArrow rightArrow
      rw [toList_render_arrow, List.append_assoc] at equal
      obtain ⟨-, rfl⟩ := eq_of_operand_append leftPlain (plain_arrow.mp rightPlain).1
        (fun isArrow => absurd isArrow noParens) restLater (continues_cons.mpr (.head _)) equal
      exact absurd restContinues not_continues_blank

theorem legible_render : Legible render Plain marks := by
  intro left
  induction left with
  | var name => exact eq_of_render_append rfl
  | arrow domain codomain domainInduction codomainInduction =>
      intro right leftPlain rightPlain rest more restContinues moreContinues equal
      cases rightArrow : right.isArrow with
      | false =>
          obtain ⟨same, restEqual⟩ := eq_of_render_append rightArrow _ rightPlain leftPlain
            more rest moreContinues restContinues equal.symm
          exact ⟨same.symm, restEqual.symm⟩
      | true =>
          obtain ⟨otherDomain, otherCodomain, rfl⟩ := exists_arrow_of_isArrow rightArrow
          obtain ⟨domainPlain, codomainPlain⟩ := plain_arrow.mp leftPlain
          obtain ⟨otherDomainPlain, otherCodomainPlain⟩ := plain_arrow.mp rightPlain
          rw [toList_render_arrow, toList_render_arrow, List.append_assoc, List.append_assoc]
            at equal
          obtain ⟨rfl, afterDomain⟩ := eq_of_operand_append domainPlain otherDomainPlain
            (fun _ => domainInduction otherDomain domainPlain otherDomainPlain)
            (continues_cons.mpr (.head _)) (continues_cons.mpr (.head _)) equal
          have afterArrow :
              codomain.render.toList ++ rest = otherCodomain.render.toList ++ more := by
            simpa using afterDomain
          obtain ⟨rfl, restEqual⟩ := codomainInduction otherCodomain codomainPlain
            otherCodomainPlain rest more restContinues moreContinues afterArrow
          exact ⟨rfl, restEqual⟩
  | int => exact eq_of_render_append rfl
  | bool => exact eq_of_render_append rfl

theorem begins_operand {ty : Ty} (plain : ty.Plain) : Begins ty.operand := by
  cases isArrow : ty.isArrow with
  | false =>
      rw [operand_of_not_arrow isArrow]
      exact begins_of_isWord (isWord_render plain isArrow)
  | true => exact ⟨'(', _, toList_operand_of_arrow isArrow, .inl rfl⟩

theorem begins_render {ty : Ty} (plain : ty.Plain) : Begins ty.render := by
  cases isArrow : ty.isArrow with
  | false =>
      rw [← operand_of_not_arrow isArrow]
      exact begins_operand plain
  | true =>
      obtain ⟨domain, codomain, rfl⟩ := exists_arrow_of_isArrow isArrow
      exact ((begins_operand (plain_arrow.mp plain).1).append _).append _

/-- A type cannot be taken for the beginning of a quantified one.  A type that begins with the
variable `forall` goes on with an arrow, if it goes on. -/
theorem render_ne_quantified {ty : Ty} (plain : ty.Plain) {rest others : List Char} {char : Char}
    (restContinues : Continues marks rest) (isChar : isNameChar char = true) :
    ty.render.toList ++ rest ≠ (var "forall").operand.toList ++ ' ' :: char :: others := by
  intro equal
  have forallPlain : (var "forall").Plain := by decide
  have blank : ∀ {after : List Char}, Continues (' ' :: marks) (' ' :: after) :=
    continues_cons.mpr (.head _)
  cases isArrow : ty.isArrow with
  | false =>
      rw [← operand_of_not_arrow isArrow] at equal
      obtain ⟨-, rfl⟩ := eq_of_operand_append plain forallPlain
        (fun _ => legible_render _ _ plain forallPlain)
        (restContinues.mono (List.subset_cons_self ' ' marks)) blank equal
      exact not_continues_blank restContinues
  | true =>
      obtain ⟨domain, codomain, rfl⟩ := exists_arrow_of_isArrow isArrow
      have domainPlain := (plain_arrow.mp plain).1
      rw [toList_render_arrow, List.append_assoc] at equal
      obtain ⟨-, afterDomain⟩ := eq_of_operand_append domainPlain forallPlain
        (fun _ => legible_render _ _ domainPlain forallPlain) blank blank equal
      have dash : '-' = char := (List.cons.inj (List.cons.inj afterDomain).2).1
      rw [← dash] at isChar
      exact absurd isChar (by decide)

end Ty

/-! ## Schemes -/

namespace Scheme

/-- All variables have plain names, those that are quantified included. -/
def Plain (scheme : Scheme) : Prop :=
  (∀ name ∈ scheme.vars, isPlainName name = true) ∧ scheme.ty.Plain

instance (scheme : Scheme) : Decidable scheme.Plain :=
  inferInstanceAs (Decidable (_ ∧ _))

theorem toList_render_cons (name : TyVar) (names : List TyVar) (ty : Ty) :
    (Scheme.mk (name :: names) ty).render.toList =
      (Ty.var "forall").operand.toList ++
        ' ' :: ((" ".intercalate (name :: names)).toList ++ '.' :: ' ' :: ty.render.toList) := by
  have spelled : "forall ".toList = (Ty.var "forall").operand.toList ++ [' '] := by decide
  simp [render, spelled]

theorem legible_vars :
    Legible (fun names : List TyVar => " ".intercalate names)
      (fun names => names ≠ [] ∧ ∀ name ∈ names, isWord name = true) ['.'] := by
  have parted : ∀ mark ∈ [' ', '.'], isNameChar mark = false := by
    simp [isNameChar]
  simpa using (legible_word parted).joined rfl (by decide)

theorem exists_cons_intercalate {name : TyVar} {names : List TyVar} (word : isWord name = true) :
    ∃ char others, (" ".intercalate (name :: names)).toList = char :: others ∧
      isNameChar char = true := by
  obtain ⟨char, others, begins, isChar⟩ := exists_cons_of_isWord word
  have split := Legible.toList_intercalate_cons " " (fun word : String => word) name names
  rw [List.map_id', begins] at split
  exact ⟨char, _, split, isChar⟩

theorem legible_render : Legible render Plain [',', '\x7d'] := by
  have inTy : [',', '\x7d'] ⊆ Ty.marks := by decide
  have words : ∀ {names : List TyVar}, (∀ name ∈ names, isPlainName name = true) →
      ∀ name ∈ names, isWord name = true :=
    fun plain name member => (isPlainName_iff.mp (plain name member)).1
  rintro ⟨leftVars, leftTy⟩ ⟨rightVars, rightTy⟩ ⟨leftPlain, leftTyPlain⟩
    ⟨rightPlain, rightTyPlain⟩ rest more restContinues moreContinues equal
  cases leftVars with
  | nil =>
      cases rightVars with
      | nil =>
          obtain ⟨rfl, restEqual⟩ := Ty.legible_render.mono inTy leftTy rightTy leftTyPlain
            rightTyPlain rest more restContinues moreContinues equal
          exact ⟨rfl, restEqual⟩
      | cons name names =>
          obtain ⟨char, others, begins, isChar⟩ :=
            exists_cons_intercalate (words rightPlain name (.head _))
          rw [toList_render_cons, begins] at equal
          simp only [List.append_assoc, List.cons_append] at equal
          exact absurd equal
            (Ty.render_ne_quantified leftTyPlain (restContinues.mono inTy) isChar)
  | cons leftName leftNames =>
      cases rightVars with
      | nil =>
          obtain ⟨char, others, begins, isChar⟩ :=
            exists_cons_intercalate (words leftPlain leftName (.head _))
          rw [toList_render_cons, begins] at equal
          simp only [List.append_assoc, List.cons_append] at equal
          exact absurd equal.symm
            (Ty.render_ne_quantified rightTyPlain (moreContinues.mono inTy) isChar)
      | cons rightName rightNames =>
          rw [toList_render_cons, toList_render_cons] at equal
          simp only [List.append_assoc, List.cons_append] at equal
          have afterForall := (List.cons.inj (List.append_cancel_left equal)).2
          have point : ∀ {after : List Char}, Continues ['.'] ('.' :: after) :=
            continues_cons.mpr (.head _)
          obtain ⟨namesEqual, afterNames⟩ := legible_vars _ _
            ⟨List.cons_ne_nil _ _, words leftPlain⟩ ⟨List.cons_ne_nil _ _, words rightPlain⟩ _ _
            point point afterForall
          simp only [List.cons.injEq, true_and] at afterNames
          obtain ⟨rfl, restEqual⟩ := Ty.legible_render.mono inTy leftTy rightTy leftTyPlain
            rightTyPlain rest more restContinues moreContinues afterNames
          exact ⟨by rw [namesEqual], restEqual⟩

end Scheme

/-! ## Substitutions and environments -/

namespace Subst

/-- All variables have plain names, those that are replaced and those that are put in. -/
def Plain (subst : Subst) : Prop :=
  ∀ name ty, subst.find? name = some ty → isPlainName name = true ∧ ty.Plain

instance (subst : Subst) : Decidable subst.Plain :=
  decidable_of_iff (∀ entry ∈ subst.toList, isPlainName entry.1 = true ∧ entry.2.Plain)
    ⟨fun listed name ty found => listed (name, ty) (mem_toList.mpr found),
      fun plain entry member => plain entry.1 entry.2 (mem_toList.mp member)⟩

theorem legible_entry :
    Legible (fun entry : TyVar × Ty => entry.2.render ++ "/" ++ entry.1)
      (fun entry => entry.2.Plain ∧ isWord entry.1 = true) [',', '\x7d'] := by
  have beforeSlash : Legible Ty.render Ty.Plain ['/'] := Ty.legible_render.mono (by decide)
  have parted : ∀ mark ∈ [',', '\x7d'], isNameChar mark = false := by
    simp [isNameChar]
  exact beforeSlash.pair Prod.snd Prod.fst (legible_word parted) rfl
    fun _ _ tyEqual nameEqual => Prod.ext nameEqual tyEqual

theorem eq_of_render_eq {left right : Subst} (leftPlain : left.Plain) (rightPlain : right.Plain)
    (equal : left.render = right.render) : left = right := by
  have admitted : ∀ {subst : Subst}, subst.Plain → ∀ entry ∈ subst.toList,
      entry.2.Plain ∧ isWord entry.1 = true := by
    intro subst plain entry member
    obtain ⟨namePlain, tyPlain⟩ := plain entry.1 entry.2 (mem_toList.mp member)
    exact ⟨tyPlain, (isPlainName_iff.mp namePlain).1⟩
  have entries := legible_entry.braced_injective
    (fun entry admitted => ((Ty.begins_render admitted.1).append _).append _)
    (admitted leftPlain) (admitted rightPlain) equal
  exact eq_of_toList_eq entries

end Subst

namespace Env

/-- All names are plain, of program variables and of type variables. -/
def Plain (env : Env) : Prop :=
  ∀ var scheme, env.find? var = some scheme → isPlainName var = true ∧ scheme.Plain

instance (env : Env) : Decidable env.Plain :=
  decidable_of_iff (∀ binding ∈ env.toList, isPlainName binding.1 = true ∧ binding.2.Plain)
    ⟨fun listed var scheme found => listed (var, scheme) (mem_toList.mpr found),
      fun plain binding member => plain binding.1 binding.2 (mem_toList.mp member)⟩

theorem legible_binding :
    Legible (fun binding : Var × Scheme => binding.1 ++ ": " ++ binding.2.render)
      (fun binding => isWord binding.1 = true ∧ binding.2.Plain) [',', '\x7d'] := by
  have parted : ∀ mark ∈ [':'], isNameChar mark = false := by
    simp [isNameChar]
  exact (legible_word parted).pair Prod.fst Prod.snd Scheme.legible_render rfl
    fun _ _ => Prod.ext

theorem eq_of_render_eq {left right : Env} (leftPlain : left.Plain) (rightPlain : right.Plain)
    (equal : left.render = right.render) : left = right := by
  have admitted : ∀ {env : Env}, env.Plain → ∀ binding ∈ env.toList,
      isWord binding.1 = true ∧ binding.2.Plain := by
    intro env plain binding member
    obtain ⟨namePlain, schemePlain⟩ := plain binding.1 binding.2 (mem_toList.mp member)
    exact ⟨(isPlainName_iff.mp namePlain).1, schemePlain⟩
  have bindings := legible_binding.braced_injective
    (fun binding admitted => ((begins_of_isWord admitted.1).append _).append _)
    (admitted leftPlain) (admitted rightPlain) equal
  exact congrArg Env.mk (Std.ExtTreeMap.toList_inj.mp bindings)

end Env

/-- Types, schemes, substitutions and environments with plain names are determined by their
texts.  For a scheme that includes the order in which variables are quantified. -/
theorem texts_determine_values :
    (∀ left right : Ty, left.Plain → right.Plain → left.render = right.render → left = right) ∧
    (∀ left right : Scheme, left.Plain → right.Plain → left.render = right.render →
      left = right) ∧
    (∀ left right : Subst, left.Plain → right.Plain → left.render = right.render →
      left = right) ∧
    ∀ left right : Env, left.Plain → right.Plain → left.render = right.render → left = right :=
  ⟨fun _ _ => Ty.legible_render.injective, fun _ _ => Scheme.legible_render.injective,
    fun _ _ => Subst.eq_of_render_eq, fun _ _ => Env.eq_of_render_eq⟩

/-- A variable is called `forall`, as if a quantifier began there. -/
def crypticScheme : Scheme :=
  ⟨["forall", "b", "forall"], .arrow (.arrow (.var "forall") .int) (.arrow (.var "b") (.var "1"))⟩

/-- A substitution that is put together in one way. -/
def crypticSubst : Subst :=
  .ofList [("forall", .arrow (.var "1") .int), ("b", .bool)]

/-- The same substitution put together in another way. -/
def crypticComp : Subst :=
  (Subst.singleton "b" .bool).comp (.singleton "forall" (.arrow (.var "1") .int))

/-- The image of the type of `crypticScheme` under both substitutions. -/
def crypticTy : Ty :=
  .arrow (.arrow (.arrow (.var "1") .int) .int) (.arrow .bool (.var "1"))

/-- An environment that is put together in one way. -/
def crypticEnv : Env :=
  .ofList [("y", .mono .bool), ("forall", crypticScheme)]

/-- The same environment put together in another way. -/
def crypticMerge : Env :=
  ((∅ : Env).insert "forall" crypticScheme).merge
    (.ofList [("forall", .mono .int), ("y", .mono .bool)])

/-- A type, a scheme, a substitution and an environment, each come by in two ways. -/
theorem texts_determine_values_cryptic :
    ((crypticSubst.apply crypticScheme.ty).Plain ∧ crypticTy.Plain ∧
      (crypticSubst.apply crypticScheme.ty).render = crypticTy.render ∧
      crypticSubst.apply crypticScheme.ty = crypticTy) ∧
    ((crypticScheme.subst crypticSubst).Plain ∧ crypticScheme.Plain ∧
      (crypticScheme.subst crypticSubst).render = crypticScheme.render ∧
      crypticScheme.subst crypticSubst = crypticScheme) ∧
    (crypticSubst.Plain ∧ crypticComp.Plain ∧ crypticSubst.render = crypticComp.render ∧
      crypticSubst = crypticComp) ∧
    crypticEnv.Plain ∧ crypticMerge.Plain ∧ crypticEnv.render = crypticMerge.render ∧
      crypticEnv = crypticMerge := by
  have tyTexts : (crypticSubst.apply crypticScheme.ty).Plain ∧ crypticTy.Plain ∧
      (crypticSubst.apply crypticScheme.ty).render = crypticTy.render := by decide +kernel
  have schemeTexts : (crypticScheme.subst crypticSubst).Plain ∧ crypticScheme.Plain ∧
      (crypticScheme.subst crypticSubst).render = crypticScheme.render := by decide +kernel
  have substTexts : crypticSubst.Plain ∧ crypticComp.Plain ∧
      crypticSubst.render = crypticComp.render := by decide +kernel
  have envTexts : crypticEnv.Plain ∧ crypticMerge.Plain ∧
      crypticEnv.render = crypticMerge.render := by decide +kernel
  obtain ⟨ofTy, ofScheme, ofSubst, ofEnv⟩ := texts_determine_values
  exact ⟨⟨tyTexts.1, tyTexts.2.1, tyTexts.2.2, ofTy _ _ tyTexts.1 tyTexts.2.1 tyTexts.2.2⟩,
    ⟨schemeTexts.1, schemeTexts.2.1, schemeTexts.2.2,
      ofScheme _ _ schemeTexts.1 schemeTexts.2.1 schemeTexts.2.2⟩,
    ⟨substTexts.1, substTexts.2.1, substTexts.2.2,
      ofSubst _ _ substTexts.1 substTexts.2.1 substTexts.2.2⟩,
    envTexts.1, envTexts.2.1, envTexts.2.2, ofEnv _ _ envTexts.1 envTexts.2.1 envTexts.2.2⟩

end LetPoly
