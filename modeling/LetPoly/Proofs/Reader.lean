import LetPoly.Proofs.Reading

/-!
# Reading expressions back

The text of an expression determines its reading and nothing more (`Expr.render_eq_iff`).  That
it determines as much is shown by reading the text back.  A `Reader` takes one character after
the other and keeps what it has read: the part of the expression that is still open, and for
each parenthesis and each `let` whose value is being read, what was open before.  Whatever it is
in the middle of, after the text of an expression it holds the reading of the expression
(`Reader.feed_render`).
-/

namespace LetPoly

/-! ## Words -/

namespace Text

/-- The characters that end a word in the text of an expression. -/
def endsWord (char : Char) : Bool :=
  [' ', '(', ')', '.'].contains char

theorem endsWord_eq_false {char : Char} (inName : isIdentifierChar char = true) :
    endsWord char = false := by
  cases ends : endsWord char with
  | false => rfl
  | true =>
      have isOne : char = ' ' ∨ char = '(' ∨ char = ')' ∨ char = '.' := by
        simpa [endsWord] using ends
      rcases isOne with rfl | rfl | rfl | rfl <;> exact absurd inName (by decide)

theorem le_toNat_of_isAlpha {char : Char} (alpha : char.isAlpha = true) : 65 ≤ char.toNat := by
  rcases Bool.or_eq_true_iff.mp alpha with upper | lower
  · have fromUpper : 'A'.val ≤ char.val := (of_decide_eq_true upper).1
    exact UInt32.le_iff_toNat_le.mp fromUpper
  · have fromLower : 'a'.val ≤ char.val := of_decide_eq_true (Bool.and_eq_true_iff.mp lower).1
    exact Nat.le_trans (by decide) (UInt32.le_iff_toNat_le.mp fromLower)

theorem isDigit_eq_false_of_isLetter {char : Char} (letter : isLetter char = true) :
    char.isDigit = false := by
  have above : 65 ≤ char.toNat := by
    rcases Bool.or_eq_true_iff.mp letter with alpha | outside
    · exact le_toNat_of_isAlpha alpha
    · exact Nat.le_trans (by decide) (of_decide_eq_true outside)
  rw [Bool.eq_false_iff]
  intro digit
  have below : char.toNat ≤ 57 := (Char.isDigit_iff_toNat.mp digit).2
  omega

/-- A word that stands for an expression: it holds no character that ends a word, and it is
neither of the two that part a `let`. -/
structure StandsAlone (word : List Char) : Prop where
  nonempty : word ≠ []
  inside : ∀ char ∈ word, endsWord char = false
  notEquals : word ≠ "=".toList
  notIn : word ≠ "in".toList

/-- An identifier is a letter and characters of a name, and not a keyword. -/
theorem exists_of_isIdentifier {name : String} (identifier : isIdentifier name = true) :
    ∃ first others, name.toList = first :: others ∧ isLetter first = true ∧
      (∀ char ∈ others, isIdentifierChar char = true) ∧ name ∉ keywords := by
  simp only [isIdentifier, Bool.and_eq_true, Bool.not_eq_true', List.all_eq_true] at identifier
  obtain ⟨⟨firstLetter, othersInName⟩, notKeyword⟩ := identifier
  cases characters : name.toList with
  | nil => simp [characters] at firstLetter
  | cons first others =>
      rw [characters] at firstLetter othersInName
      exact ⟨first, others, rfl, firstLetter, othersInName, by simpa using notKeyword⟩

theorem toList_ne_of_isIdentifier {name : String} (identifier : isIdentifier name = true)
    {word : String} (isKeyword : word ∈ keywords) : name.toList ≠ word.toList := by
  obtain ⟨_, _, -, -, -, notKeyword⟩ := exists_of_isIdentifier identifier
  intro same
  rw [String.toList_inj.mp same] at notKeyword
  exact notKeyword isKeyword

theorem standsAlone_identifier {name : String} (identifier : isIdentifier name = true) :
    StandsAlone name.toList := by
  obtain ⟨first, others, characters, firstLetter, othersInName, -⟩ :=
    exists_of_isIdentifier identifier
  have allInName : ∀ char ∈ name.toList, isIdentifierChar char = true := by
    rw [characters]
    intro char member
    rcases List.mem_cons.mp member with rfl | member
    · simp [isIdentifierChar, firstLetter]
    · exact othersInName char member
  refine ⟨by simp [characters], fun char member => endsWord_eq_false (allInName char member),
    ?_, toList_ne_of_isIdentifier identifier (by decide)⟩
  intro equals
  exact absurd (allInName '=' (by rw [equals]; decide)) (by decide)

theorem standsAlone_toDigits (number : Nat) : StandsAlone (Nat.toDigits 10 number) := by
  have digits (char : Char) (member : char ∈ Nat.toDigits 10 number) : char.isDigit = true :=
    Nat.isDigit_of_mem_toDigits (by decide) (by decide) member
  refine ⟨Nat.toDigits_ne_nil, fun char member => endsWord_eq_false ?_, ?_, ?_⟩
  · simp [isIdentifierChar, digits char member]
  · intro equals
    exact absurd (digits '=' (by rw [equals]; decide)) (by decide)
  · intro equals
    exact absurd (digits 'i' (by rw [equals]; decide)) (by decide)

end Text

open Text

namespace Expr

/-- The expression that a word by itself stands for: a number, a truth value or a variable. -/
def ofWord (word : List Char) : Expr :=
  if word.head? = some '-' then
    lit (.int (-(Nat.ofDigitChars 10 word.tail 0 : Nat)))
  else if word.head?.any Char.isDigit then
    lit (.int (Nat.ofDigitChars 10 word 0 : Nat))
  else if word = "true".toList then
    lit (.bool true)
  else if word = "false".toList then
    lit (.bool false)
  else
    var (String.ofList word)

theorem toList_render_int_ofNat (number : Nat) :
    (Lit.int number).render.toList = Nat.toDigits 10 number := by
  rw [← Nat.toList_repr]
  rfl

theorem toList_render_int_negSucc (number : Nat) :
    (Lit.int (.negSucc number)).render.toList = '-' :: Nat.toDigits 10 (number + 1) := by
  rw [← Nat.toList_repr]
  exact String.toList_append

theorem ofWord_toDigits (number : Nat) :
    ofWord (Nat.toDigits 10 number) = lit (.int number) := by
  cases characters : Nat.toDigits 10 number with
  | nil => exact absurd characters Nat.toDigits_ne_nil
  | cons first others =>
      have firstDigit : first.isDigit = true :=
        Nat.isDigit_of_mem_toDigits (b := 10) (n := number) (by decide) (by decide)
          (by simp [characters])
      have notMinus : first ≠ '-' := by
        rintro rfl
        exact absurd firstDigit (by decide)
      have value : Nat.ofDigitChars 10 (first :: others) 0 = number := by
        rw [← characters]
        exact Nat.ofDigitChars_toDigits (by decide) (by decide)
      simp only [ofWord, List.head?_cons, Option.some.injEq, notMinus, if_false, Option.any_some,
        firstDigit, if_true, value]

theorem ofWord_minus_toDigits (number : Nat) :
    ofWord ('-' :: Nat.toDigits 10 number) = lit (.int (-number)) := by
  simp [ofWord]

theorem ofWord_identifier {name : String} (identifier : isIdentifier name = true) :
    ofWord name.toList = var name := by
  obtain ⟨first, others, characters, firstLetter, -, -⟩ := exists_of_isIdentifier identifier
  have notMinus : first ≠ '-' := by
    rintro rfl
    exact absurd firstLetter (by decide)
  have notDigit := isDigit_eq_false_of_isLetter firstLetter
  have notTrue : name.toList ≠ "true".toList :=
    toList_ne_of_isIdentifier identifier (by decide)
  have notFalse : name.toList ≠ "false".toList :=
    toList_ne_of_isIdentifier identifier (by decide)
  rw [ofWord, if_neg (by simp [characters, notMinus]), if_neg (by simp [characters, notDigit]),
    if_neg notTrue, if_neg notFalse, String.ofList_toList]

/-- The text of a literal is a word that stands for it. -/
theorem word_lit (value : Lit) :
    StandsAlone value.render.toList ∧ ofWord value.render.toList = lit value := by
  cases value with
  | int value =>
      cases value with
      | ofNat number =>
          rw [Int.ofNat_eq_natCast, toList_render_int_ofNat]
          exact ⟨standsAlone_toDigits number, ofWord_toDigits number⟩
      | negSucc number =>
          rw [toList_render_int_negSucc]
          refine ⟨⟨by simp, ?_, by simp, by simp⟩, ofWord_minus_toDigits (number + 1)⟩
          intro char member
          rcases List.mem_cons.mp member with rfl | member
          · decide
          · exact (standsAlone_toDigits _).inside char member
  | bool value =>
      have inside : ∀ char ∈ (Lit.bool value).render.toList, endsWord char = false := by
        cases value <;> simp [Lit.render, endsWord]
      refine ⟨⟨?_, inside, ?_, ?_⟩, ?_⟩ <;> cases value <;> decide

/-- The text of an expression that is not compound is a word that stands for it. -/
theorem word_render {expr : Expr} (atomic : expr.isCompound = false) (named : expr.Named) :
    StandsAlone expr.render.toList ∧ ofWord expr.render.toList = expr := by
  cases expr with
  | var name =>
      have identifier : isIdentifier name = true := named name (by simp [names])
      exact ⟨standsAlone_identifier identifier, ofWord_identifier identifier⟩
  | lit value => exact word_lit value
  | abs | app | letIn => cases atomic

end Expr

/-! ## Readers -/

/-- What stands around the part of an expression that is still open: a `λ`, a `let` whose body
is being read, or a binder in parentheses whose argument is. -/
inductive Frame where
  | abs (param : Var)
  | body (name : Var) (value : Expr)
  | arg (func : Expr) (isBinder : func.isBinder = true)

namespace Frame

/-- Put an expression into the open place of a frame. -/
def fill : Frame → Expr → Expr
  | abs param, inner => .abs param inner
  | body name value, inner => .letIn name value inner
  | arg func _, inner => .app func inner

/-- The place of a frame is the last part of what it is filled to. -/
theorem extend_fill (frame : Frame) (inner arg : Expr) :
    (frame.fill inner).extend arg = frame.fill (inner.extend arg) := by
  cases frame with
  | abs => rfl
  | body => rfl
  | arg func isBinder => exact if_pos isBinder

/-- Put an expression into frames, the innermost of which comes first. -/
def wrap (frames : List Frame) (inner : Expr) : Expr :=
  frames.foldl (fun whole frame => frame.fill whole) inner

theorem wrap_append_singleton (frames : List Frame) (frame : Frame) (inner : Expr) :
    wrap (frames ++ [frame]) inner = frame.fill (wrap frames inner) := by
  simp [wrap]

/-- So an argument after the whole is an argument of the open part. -/
theorem extend_wrap (frames : List Frame) (inner arg : Expr) :
    (wrap frames inner).extend arg = wrap frames (inner.extend arg) := by
  induction frames generalizing inner with
  | nil => rfl
  | cons frame frames framesInduction =>
      change (wrap frames (frame.fill inner)).extend arg = wrap frames (frame.fill _)
      rw [framesInduction, extend_fill]

end Frame

/-- What was open before a parenthesis, or before the value of a `let`. -/
inductive Suspended where
  | paren (frames : List Frame) (focus : Option Expr)
  | value (frames : List Frame) (name : Var)

/-- What has been read of a text: what was suspended, the frames around the open part, the
part itself where something of it has been read, and the characters of the last word. -/
structure Reader where
  outer : List Suspended
  frames : List Frame
  focus : Option Expr
  word : List Char

namespace Reader

/-- Write an expression after the open part. -/
def supply : Option Expr → Expr → Expr
  | none, expr => expr
  | some func, arg => func.extend arg

/-- After `let x =`, read the value. -/
def beginValue (reader : Reader) : Reader :=
  match reader.focus with
  | some (.app (.var "let") (.var name)) =>
      ⟨.value reader.frames name :: reader.outer, [], none, []⟩
  | _ => reader

/-- After `in`, read the body. -/
def beginBody (reader : Reader) : Reader :=
  match reader.outer, reader.focus with
  | .value frames name :: outer, some value =>
      ⟨outer, .body name (Frame.wrap reader.frames value) :: frames, none, []⟩
  | _, _ => reader

/-- At the end of a word, take it up. -/
def endWord (reader : Reader) : Reader :=
  if reader.word = [] then
    reader
  else if reader.word = "=".toList then
    beginValue { reader with word := [] }
  else if reader.word = "in".toList then
    beginBody { reader with word := [] }
  else
    { reader with focus := some (supply reader.focus (Expr.ofWord reader.word)), word := [] }

/-- After `λx.`, read the body. -/
def beginScope (reader : Reader) : Reader :=
  match reader.word with
  | 'λ' :: param =>
      { reader with frames := .abs (String.ofList param) :: reader.frames, word := [] }
  | _ => reader

/-- At a closing parenthesis, take up what stood in it.  A binder that nothing stands before is
a function, and its argument follows. -/
def close (reader : Reader) : Reader :=
  match reader.outer, reader.focus with
  | .paren frames none :: outer, some inner =>
      if isBinder : (Frame.wrap reader.frames inner).isBinder = true then
        ⟨outer, .arg _ isBinder :: frames, none, []⟩
      else
        ⟨outer, frames, some (Frame.wrap reader.frames inner), []⟩
  | .paren frames (some func) :: outer, some inner =>
      ⟨outer, frames, some (func.extend (Frame.wrap reader.frames inner)), []⟩
  | _, _ => reader

/-- Read one character. -/
def step (reader : Reader) (char : Char) : Reader :=
  if char = ' ' then
    reader.endWord
  else if char = '(' then
    ⟨.paren reader.frames reader.focus :: reader.outer, [], none, []⟩
  else if char = ')' then
    reader.endWord.close
  else if char = '.' then
    reader.beginScope
  else
    { reader with word := reader.word ++ [char] }

/-- Read a text. -/
def feed (reader : Reader) (text : String) : Reader :=
  text.toList.foldl step reader

theorem feed_append (reader : Reader) (first second : String) :
    reader.feed (first ++ second) = (reader.feed first).feed second := by
  simp [feed]

theorem step_inside (reader : Reader) {char : Char} (inside : endsWord char = false) :
    reader.step char = { reader with word := reader.word ++ [char] } := by
  have apart : char ≠ ' ' ∧ char ≠ '(' ∧ char ≠ ')' ∧ char ≠ '.' := by
    simpa [endsWord] using inside
  simp [step, apart]

/-- The characters of a word are only collected. -/
theorem feed_inside (reader : Reader) {text : String}
    (inside : ∀ char ∈ text.toList, endsWord char = false) :
    reader.feed text = { reader with word := reader.word ++ text.toList } := by
  rw [feed]
  generalize text.toList = characters at inside ⊢
  induction characters generalizing reader with
  | nil => simp
  | cons char others othersInduction =>
      rw [List.foldl_cons, step_inside reader (inside char (by simp)),
        othersInduction _ (fun other member => inside other (by simp [member]))]
      simp

/-- An atomic expression is written after the open part. -/
theorem endWord_feed_atom {expr : Expr} (atomic : expr.isCompound = false) (named : expr.Named)
    (outer : List Suspended) (frames : List Frame) (focus : Option Expr) :
    ((Reader.mk outer frames focus []).feed expr.render).endWord =
      ⟨outer, frames, some (supply focus expr), []⟩ := by
  obtain ⟨standsAlone, standsFor⟩ := Expr.word_render atomic named
  rw [feed_inside _ standsAlone.inside]
  simp only [endWord, List.nil_append, standsAlone.nonempty, standsAlone.notEquals,
    standsAlone.notIn, if_false, standsFor]

theorem feed_lambda {param : Var} (identifier : isIdentifier param = true)
    (outer : List Suspended) (frames : List Frame) :
    (Reader.mk outer frames none []).feed ("λ" ++ param ++ ".") =
      ⟨outer, .abs param :: frames, none, []⟩ := by
  have inside : ∀ char ∈ ("λ" ++ param).toList, endsWord char = false := by
    intro char member
    rw [String.toList_append] at member
    rcases List.mem_append.mp member with isLambda | inParam
    · rw [List.mem_singleton.mp isLambda]
      decide
    · exact (standsAlone_identifier identifier).inside char inParam
  rw [feed_append, feed_inside _ inside, String.toList_append]
  change Reader.mk outer (.abs (String.ofList param.toList) :: frames) none [] = _
  rw [String.ofList_toList]

theorem feed_let {name : Var} (identifier : isIdentifier name = true)
    (outer : List Suspended) (frames : List Frame) :
    (Reader.mk outer frames none []).feed ("let " ++ name ++ " = ") =
      ⟨.value frames name :: outer, [], none, []⟩ := by
  have named : (Expr.var name).Named := by simpa [Expr.Named, Expr.names] using identifier
  -- Up to the equals sign, `let` is read as if it were applied to the name.
  have afterLet : (Reader.mk outer frames none []).feed "let " =
      ⟨outer, frames, some (.var "let"), []⟩ := rfl
  have afterName : ((Reader.mk outer frames (some (.var "let")) []).feed name).endWord =
      ⟨outer, frames, some (.app (.var "let") (.var name)), []⟩ :=
    endWord_feed_atom rfl named outer frames (some (.var "let"))
  rw [feed_append, feed_append, afterLet]
  change step (step (endWord _) '=') ' ' = _
  rw [afterName]
  rfl

theorem feed_in {reader : Reader} {outer : List Suspended} {frames inner : List Frame}
    {name : Var} {value : Expr}
    (read : reader.endWord = ⟨.value frames name :: outer, inner, some value, []⟩) :
    reader.feed " in " = ⟨outer, .body name (Frame.wrap inner value) :: frames, none, []⟩ := by
  change step (step (step reader.endWord 'i') 'n') ' ' = _
  rw [read]
  rfl

theorem feed_open (outer : List Suspended) (frames : List Frame) (focus : Option Expr) :
    (Reader.mk outer frames focus []).feed "(" = ⟨.paren frames focus :: outer, [], none, []⟩ :=
  rfl

theorem feed_close_func {reader : Reader} {outer : List Suspended} {frames inner : List Frame}
    {focus : Expr} (read : reader.endWord = ⟨.paren frames none :: outer, inner, some focus, []⟩)
    (isBinder : (Frame.wrap inner focus).isBinder = true) :
    reader.feed ") " = ⟨outer, .arg _ isBinder :: frames, none, []⟩ := by
  change endWord (close reader.endWord) = _
  rw [read]
  simp [close, isBinder, endWord]

theorem feed_close_arg {reader : Reader} {outer : List Suspended} {frames inner : List Frame}
    {func focus : Expr}
    (read : reader.endWord = ⟨.paren frames (some func) :: outer, inner, some focus, []⟩) :
    (reader.feed ")").endWord =
      ⟨outer, frames, some (func.extend (Frame.wrap inner focus)), []⟩ := by
  change endWord (close reader.endWord) = _
  rw [read]
  rfl

/-- Whatever a reader is in the middle of, after the text of an expression it holds the
expression's reading: some frames, and in them the part that a further argument would go to. -/
theorem feed_render {expr : Expr} (named : expr.Named) (outer : List Suspended)
    (frames : List Frame) :
    ∃ inner focus, ((Reader.mk outer frames none []).feed expr.render).endWord =
        ⟨outer, inner ++ frames, some focus, []⟩ ∧ Frame.wrap inner focus = expr.reading := by
  -- The value of a `let` and what stands in parentheses are read with more suspended and with no
  -- frames, the scope of a binder with one more frame.
  induction expr generalizing outer frames with
  | var name => exact ⟨[], .var name, endWord_feed_atom rfl named outer frames none, rfl⟩
  | lit value => exact ⟨[], .lit value, endWord_feed_atom rfl named outer frames none, rfl⟩
  | abs param body induction =>
      obtain ⟨identifier, bodyNamed⟩ := Expr.named_abs.mp named
      obtain ⟨inner, focus, read, wraps⟩ := induction bodyNamed outer (.abs param :: frames)
      refine ⟨inner ++ [.abs param], focus, ?_, ?_⟩
      · rw [Expr.render, feed_append, feed_lambda identifier, read]
        simp
      · rw [Frame.wrap_append_singleton, wraps]
        rfl
  | letIn name value body valueInduction bodyInduction =>
      obtain ⟨identifier, valueNamed, bodyNamed⟩ := Expr.named_letIn.mp named
      obtain ⟨valueInner, valueFocus, valueRead, valueWraps⟩ :=
        valueInduction valueNamed (.value frames name :: outer) []
      rw [List.append_nil] at valueRead
      obtain ⟨inner, focus, read, wraps⟩ :=
        bodyInduction bodyNamed outer (.body name value.reading :: frames)
      refine ⟨inner ++ [.body name value.reading], focus, ?_, ?_⟩
      · rw [Expr.render, feed_append, feed_append, feed_append, feed_let identifier,
          feed_in valueRead, valueWraps, read]
        simp
      · rw [Frame.wrap_append_singleton, wraps]
        rfl
  | app func arg funcInduction argInduction =>
      obtain ⟨funcNamed, argNamed⟩ := Expr.named_app.mp named
      cases isBinder : func.isBinder with
      | true =>
          obtain ⟨funcInner, funcFocus, funcRead, funcWraps⟩ :=
            funcInduction funcNamed (.paren frames none :: outer) []
          rw [List.append_nil] at funcRead
          have wrapsBinder : (Frame.wrap funcInner funcFocus).isBinder = true := by
            rw [funcWraps, Expr.isBinder_reading, isBinder]
          obtain ⟨inner, focus, read, wraps⟩ :=
            argInduction argNamed outer (.arg _ wrapsBinder :: frames)
          refine ⟨inner ++ [.arg _ wrapsBinder], focus, ?_, ?_⟩
          · rw [Expr.render_app_of_binder isBinder, feed_append, feed_append, feed_append,
              feed_open, feed_close_func funcRead wrapsBinder, read]
            simp
          · rw [Frame.wrap_append_singleton, wraps, Expr.reading, if_pos isBinder, ← funcWraps]
            rfl
      | false =>
          obtain ⟨inner, focus, funcRead, funcWraps⟩ := funcInduction funcNamed outer frames
          -- The argument goes to the part that is open, which may lie deep in the function.
          have readingEq :
              (Expr.app func arg).reading = Frame.wrap inner (focus.extend arg.reading) := by
            rw [Expr.reading, if_neg (by simp [isBinder]), ← funcWraps, Frame.extend_wrap]
          refine ⟨inner, focus.extend arg.reading, ?_, readingEq.symm⟩
          rw [Expr.render_app_of_not_binder isBinder, feed_append, feed_append]
          change (feed (endWord _) _).endWord = _
          rw [funcRead]
          cases compound : arg.isCompound with
          | true =>
              obtain ⟨argInner, argFocus, argRead, argWraps⟩ :=
                argInduction argNamed (.paren (inner ++ frames) (some focus) :: outer) []
              rw [List.append_nil] at argRead
              rw [parensIf_true, feed_append, feed_append, feed_open, feed_close_arg argRead,
                argWraps]
          | false =>
              rw [parensIf_false, endWord_feed_atom compound argNamed,
                Expr.reading_of_atomic compound]
              rfl

end Reader

/-! ## What a text determines -/

namespace Expr

/-- Read a whole text. -/
def read (text : String) : Option Expr :=
  let reader := ((Reader.mk [] [] none []).feed text).endWord
  reader.focus.map (Frame.wrap reader.frames)

/-- The text of an expression reads as the expression's reading. -/
theorem read_render {expr : Expr} (named : expr.Named) : read expr.render = some expr.reading := by
  obtain ⟨inner, focus, isRead, wraps⟩ := Reader.feed_render named [] []
  simp [read, isRead, wraps]

/-- Two texts agree exactly where the readings do. -/
theorem render_eq_iff {first second : Expr} (firstNamed : first.Named)
    (secondNamed : second.Named) :
    first.render = second.render ↔ first.reading = second.reading := by
  constructor
  · intro sameText
    have sameRead := congrArg read sameText
    rw [read_render firstNamed, read_render secondNamed] at sameRead
    exact Option.some.inj sameRead
  · intro sameReading
    rw [← render_reading first, sameReading, render_reading]

/-- Printed expressions are unambiguous up to their readings, where all names are identifiers:
two texts agree exactly where the readings do.  Every text is that of a direct expression, and
of one only. -/
theorem render_determines_reading (first second : Expr) (firstNamed : first.Named)
    (secondNamed : second.Named) :
    (first.render = second.render ↔ first.reading = second.reading) ∧
      (first.reading.Named ∧ first.reading.isDirect = true ∧
        first.reading.render = first.render) ∧
      (first.isDirect = true → second.isDirect = true → first.render = second.render →
        first = second) := by
  refine ⟨render_eq_iff firstNamed secondNamed,
    ⟨?_, isDirect_reading first, render_reading first⟩, ?_⟩
  · rw [Named, names_reading]
    exact firstNamed
  · intro firstDirect secondDirect sameText
    calc first = first.reading := (reading_of_isDirect firstDirect).symm
      _ = second.reading := (render_eq_iff firstNamed secondNamed).mp sameText
      _ = second := reading_of_isDirect secondDirect

/-- The application of `λx.x` to `f`, applied to `y`. -/
def appliedTwice : Expr :=
  app (app (abs "x" (var "x")) (var "f")) (var "y")

/-- The application of `λx.x` to `f y`. -/
def appliedOnce : Expr :=
  app (abs "x" (var "x")) (app (var "f") (var "y"))

theorem render_determines_reading_applied :
    appliedTwice.Named ∧ appliedOnce.Named ∧
      appliedTwice.render = "(λx.x) f y" ∧ appliedOnce.render = "(λx.x) f y" ∧
      appliedTwice.reading = appliedOnce.reading ∧ appliedTwice.reading.isDirect = true := by
  have twiceNamed : appliedTwice.Named := by decide +kernel
  have onceNamed : appliedOnce.Named := by decide +kernel
  obtain ⟨sameIff, ⟨-, direct, -⟩, -⟩ :=
    render_determines_reading appliedTwice appliedOnce twiceNamed onceNamed
  exact ⟨twiceNamed, onceNamed, by decide +kernel, by decide +kernel,
    sameIff.mp (by decide +kernel), direct⟩

/-- A text by itself does not determine the expression. -/
theorem render_ambiguous :
    ¬ ∀ first second : Expr, first.Named → second.Named → first.render = second.render →
      first = second := by
  intro unambiguous
  exact absurd (unambiguous appliedTwice appliedOnce (by decide +kernel) (by decide +kernel)
    (by decide +kernel)) (by decide)

end Expr

end LetPoly
