namespace PlanningDomain

/-!
# Source text and its byte offsets

A source is a sequence of characters, but every place in it is named by a
byte offset of its UTF-8 encoding.  Most offsets of a text with characters
beyond ASCII are therefore not places between two characters, and a range of
offsets need not be the range of any text.  A `Span` is only a pair of
numbers.  Whether it denotes text is decided when the text is asked for, by
`Source.slice?`.
-/

/-- A range of byte offsets, its end excluded.  Nothing is required of the
two offsets, not even their order. -/
structure Span where
  start : Nat
  stop : Nat
deriving DecidableEq, Repr

namespace Span

/-- The number of bytes from the start to the end of the range. -/
def length (span : Span) : Nat :=
  span.stop - span.start

def isEmpty (span : Span) : Bool :=
  span.start == span.stop

/-- The range without its first and its last byte. -/
def inner (span : Span) : Span :=
  ⟨span.start + 1, span.stop - 1⟩

end Span

/-- The number of bytes that the UTF-8 encoding of a text takes. -/
def byteLength : List Char -> Nat
  | [] => 0
  | char :: rest => char.utf8Size + byteLength rest

@[simp] theorem byteLength_nil : byteLength [] = 0 := rfl

@[simp] theorem byteLength_cons (char : Char) (rest : List Char) :
    byteLength (char :: rest) = char.utf8Size + byteLength rest := rfl

theorem byteLength_append (first second : List Char) :
    byteLength (first ++ second) = byteLength first + byteLength second := by
  induction first with
  | nil => simp
  | cons char rest ih => simp [ih, Nat.add_assoc]

/-- The text after the first `count` bytes, if a character ends there. -/
def dropBytes? : List Char -> Nat -> Option (List Char)
  | text, 0 => some text
  | [], _ + 1 => none
  | char :: rest, count + 1 =>
      if char.utf8Size ≤ count + 1 then
        dropBytes? rest (count + 1 - char.utf8Size)
      else
        none

/-- The first `count` bytes of the text, if a character ends there. -/
def takeBytes? : List Char -> Nat -> Option (List Char)
  | _, 0 => some []
  | [], _ + 1 => none
  | char :: rest, count + 1 =>
      if char.utf8Size ≤ count + 1 then
        (takeBytes? rest (count + 1 - char.utf8Size)).map (char :: ·)
      else
        none

/-- Dropping the bytes of a leading text leaves what follows it. -/
theorem dropBytes?_append (first second : List Char) :
    dropBytes? (first ++ second) (byteLength first) = some second := by
  induction first with
  | nil => cases second <;> rfl
  | cons char rest ih =>
      have positive := char.utf8Size_pos
      rcases ⟨char.utf8Size + byteLength rest - 1, by simp only [byteLength_cons]; omega⟩ with
        ⟨size, sizeEq⟩ : Exists fun size => byteLength (char :: rest) = size + 1
      have fits : char.utf8Size ≤ size + 1 := by
        rw [← sizeEq, byteLength_cons]; omega
      have remaining : size + 1 - char.utf8Size = byteLength rest := by
        rw [← sizeEq, byteLength_cons]; omega
      rw [sizeEq, List.cons_append, dropBytes?, if_pos fits, remaining, ih]

/-- Taking the bytes of a leading text gives that text. -/
theorem takeBytes?_append (first second : List Char) :
    takeBytes? (first ++ second) (byteLength first) = some first := by
  induction first with
  | nil => cases second <;> rfl
  | cons char rest ih =>
      have positive := char.utf8Size_pos
      rcases ⟨char.utf8Size + byteLength rest - 1, by simp only [byteLength_cons]; omega⟩ with
        ⟨size, sizeEq⟩ : Exists fun size => byteLength (char :: rest) = size + 1
      have fits : char.utf8Size ≤ size + 1 := by
        rw [← sizeEq, byteLength_cons]; omega
      have remaining : size + 1 - char.utf8Size = byteLength rest := by
        rw [← sizeEq, byteLength_cons]; omega
      rw [sizeEq, List.cons_append, takeBytes?, if_pos fits, remaining, ih]
      rfl

/-- The text of one compilation unit. -/
structure Source where
  chars : List Char
deriving DecidableEq, Repr

namespace Source

def ofString (text : String) : Source :=
  ⟨text.toList⟩

/-- The length of the source in bytes, which is also the offset of its end. -/
def size (source : Source) : Nat :=
  byteLength source.chars

/-- An offset is a boundary if it lies inside the source or at its end, and
not within a character. -/
def isBoundary (source : Source) (offset : Nat) : Bool :=
  (dropBytes? source.chars offset).isSome

/-- The text that a range covers.  There is none if the range runs backwards,
leaves the source, or begins or ends within a character. -/
def slice? (source : Source) (span : Span) : Option String :=
  if span.start ≤ span.stop then
    ((dropBytes? source.chars span.start).bind
      (takeBytes? · span.length)).map String.ofList
  else
    none

/-- The range that a text takes in a source around it is read back as that
text. -/
theorem slice?_between (before text after : List Char) :
    slice? ⟨before ++ text ++ after⟩
        ⟨byteLength before, byteLength before + byteLength text⟩ =
      some (String.ofList text) := by
  have dropped := dropBytes?_append before (text ++ after)
  have taken := takeBytes?_append text after
  simp only [slice?, Span.length, Nat.le_add_right, if_true, List.append_assoc, dropped,
    Option.bind_some, Nat.add_sub_cancel_left, taken, Option.map_some]

end Source

end PlanningDomain
