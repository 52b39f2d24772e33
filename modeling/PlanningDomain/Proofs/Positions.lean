import PlanningDomain.Proofs.Machine.Total
import PlanningDomain.Proofs.Reader.Layout
import PlanningDomain.Proofs.Token.LongestMatch

namespace PlanningDomain

/-!
# Positions are faithful

A line and a column are as good as an offset.  A text between two places moves
the position on, in reading order.  What stands before a place is some whole lines
and the beginning of another, so one can go to a position by passing whole lines
first, and then single characters.

Everything that is said about a source is said about one of its tokens or about
its end, whatever is read in whatever order.  So every diagnostic lies inside of
the source and has a position.
-/

/-! ## Reading order -/

namespace Position

/-- A position is on an earlier line than another, or further left on the same
line. -/
def Precedes (first second : Position) : Prop :=
  first.line < second.line ∨ first.line = second.line ∧ first.column < second.column

theorem Precedes.trans {first second third : Position} (before : first.Precedes second)
    (behind : second.Precedes third) : first.Precedes third := by
  unfold Precedes at *
  omega

theorem precedes_after (position : Position) (char : Char) :
    position.Precedes (position.after char) := by
  unfold after
  split
  · exact Or.inl (Nat.lt_succ_self _)
  · exact Or.inr ⟨rfl, Nat.lt_succ_self _⟩

/-- A text that is not empty moves every position on. -/
theorem precedes_text {text : List Char} (notEmpty : text ≠ []) (position : Position) :
    position.Precedes (text.foldl after position) := by
  induction text generalizing position with
  | nil => exact (notEmpty rfl).elim
  | cons char rest ih =>
      have moved := position.precedes_after char
      cases rest with
      | nil => exact moved
      | cons _ _ => exact moved.trans (ih (List.cons_ne_nil _ _) _)

/-- The position of a place is reached over the characters before it. -/
theorem advance_append (position : Position) (before rest : List Char) :
    position.advance (before ++ rest) (byteLength before) = before.foldl after position := by
  induction before generalizing position with
  | nil =>
      cases rest with
      | nil => rfl
      | cons char rest =>
          rw [List.nil_append, byteLength_nil, advance, if_neg (Nat.not_le.mpr char.utf8Size_pos)]
          rfl
  | cons char before ih =>
      rw [List.cons_append, byteLength_cons, advance, if_pos (Nat.le_add_right _ _),
        Nat.add_sub_cancel_left, ih, List.foldl_cons]

end Position

/-! ## Lines -/

/-- The text of some whole lines, each with the line feed that ends it. -/
def linesText (lines : List (List Char)) : List Char :=
  lines.flatMap (fun line => line ++ ['\n'])

/-- Pass whole lines, and then single characters of the next line.  What is counted
are the bytes on the way. -/
def bytesTo? : List (List Char) -> Nat -> Nat -> Option Nat
  | [], _, _ => none
  | line :: _, 0, count =>
      if count ≤ line.length then some (byteLength (line.take count)) else none
  | line :: rest, passed + 1, count =>
      (bytesTo? rest passed count).map (byteLength line + '\n'.utf8Size + ·)

/-- A text is some whole lines and the beginning of another, and its position counts
them. -/
theorem exists_lines (text : List Char) :
    Exists fun passed : List (List Char) => Exists fun line : List Char =>
      text = linesText passed ++ line ∧
        (forall other, other ∈ passed -> '\n' ∉ other) ∧ '\n' ∉ line ∧
        text.foldl Position.after .origin = ⟨passed.length + 1, line.length + 1⟩ := by
  induction text using List.reverseRecOn with
  | nil =>
      exact ⟨[], [], rfl, fun _ member => (List.not_mem_nil member).elim, List.not_mem_nil, rfl⟩
  | append_singleton text char ih =>
      rcases ih with ⟨passed, line, same, unbroken, last, position⟩
      by_cases feed : char = '\n'
      · refine ⟨passed ++ [line], [], ?_, ?_, List.not_mem_nil, ?_⟩
        · rw [same, feed, linesText, linesText, List.flatMap_append, List.flatMap_singleton,
            List.append_nil, List.append_assoc]
        · exact List.forall_mem_append.mpr ⟨unbroken, List.forall_mem_singleton.mpr last⟩
        · rw [List.foldl_append, position, feed, List.length_append]
          rfl
      · refine ⟨passed, line ++ [char], ?_, unbroken, ?_, ?_⟩
        · rw [same, List.append_assoc]
        · rw [List.mem_append, List.mem_singleton]
          exact not_or.mpr ⟨last, Ne.symm feed⟩
        · rw [List.foldl_append, position, List.foldl_cons, List.foldl_nil, Position.after,
            if_neg feed, List.length_append]
          rfl

theorem splitOn_line {line : List Char} (unbroken : '\n' ∉ line) (rest : List Char) :
    Exists fun left : List Char => Exists fun others : List (List Char) =>
      (line ++ rest).splitOn '\n' = (line ++ left) :: others := by
  induction line with
  | nil => exact List.exists_cons_of_ne_nil (List.splitOn_ne_nil _ _)
  | cons char line ih =>
      rcases List.ne_and_not_mem_of_not_mem_cons unbroken with ⟨other, further⟩
      rcases ih further with ⟨left, others, split⟩
      refine ⟨left, others, ?_⟩
      rw [List.splitOn] at split
      rw [List.cons_append, List.splitOn, List.splitOnP_cons_eq_if_modifyHead,
        if_neg (fun same => other (beq_iff_eq.mp same).symm), split]
      rfl

/-- A place of a text is found behind the lines before it, and behind the characters
before it in its own line. -/
theorem bytesTo?_lines (passed : List (List Char)) {line : List Char}
    (unbroken : forall other, other ∈ passed -> '\n' ∉ other) (last : '\n' ∉ line)
    (rest : List Char) :
    bytesTo? ((linesText passed ++ line ++ rest).splitOn '\n') passed.length line.length =
      some (byteLength (linesText passed ++ line)) := by
  induction passed with
  | nil =>
      rcases splitOn_line last rest with ⟨left, others, split⟩
      change bytesTo? ((line ++ rest).splitOn '\n') 0 line.length = some (byteLength line)
      rw [split, bytesTo?, List.take_left, List.length_append, if_pos (Nat.le_add_right _ _)]
  | cons first passed ih =>
      have found := ih (fun other member => unbroken other (List.mem_cons_of_mem _ member))
      have whole : linesText (first :: passed) = first ++ '\n' :: linesText passed := by
        rw [linesText, List.flatMap_cons, List.append_assoc]
        rfl
      have split : (first ++ '\n' :: (linesText passed ++ line ++ rest)).splitOn '\n' =
          first :: (linesText passed ++ line ++ rest).splitOn '\n' := by
        refine List.splitOnP_append_cons_of_forall_mem (fun char member => ?_) '\n' rfl _
        have inLine : char ≠ '\n' := fun same =>
          unbroken first List.mem_cons_self (same ▸ member)
        exact beq_eq_false_iff_ne.mpr inLine
      simp only [whole, List.append_assoc, List.cons_append] at found split ⊢
      rw [split, List.length_cons, bytesTo?, found, Option.map_some, byteLength_append first,
        byteLength_cons, Nat.add_assoc]

namespace Source

/-- The lines of a source.  A line ends at a line feed and at nothing else. -/
def lines (source : Source) : List (List Char) :=
  source.chars.splitOn '\n'

/-- The offset that one finds by going to the line of a position, and from there
over the characters before its column. -/
def offset? (source : Source) : Position -> Option Nat
  | ⟨line + 1, column + 1⟩ => bytesTo? source.lines line column
  | _ => none

/-- What stands before a boundary is as long as the boundary says. -/
theorem exists_split_of_isBoundary {source : Source} {offset : Nat}
    (boundary : source.isBoundary offset = true) :
    Exists fun before : List Char => Exists fun after : List Char =>
      source.chars = before ++ after ∧ byteLength before = offset := by
  rcases source with ⟨chars⟩
  change (dropBytes? chars offset).isSome = true at boundary
  change Exists fun before : List Char => Exists fun after : List Char =>
    chars = before ++ after ∧ byteLength before = offset
  induction chars generalizing offset with
  | nil =>
      cases offset with
      | zero => exact ⟨[], [], rfl, rfl⟩
      | succ _ => exact Bool.noConfusion boundary
  | cons char rest ih =>
      cases offset with
      | zero => exact ⟨[], char :: rest, rfl, rfl⟩
      | succ count =>
          rw [dropBytes?] at boundary
          split at boundary
          case isTrue fits =>
            rcases ih boundary with ⟨before, after, split, length⟩
            refine ⟨char :: before, after, congrArg _ split, ?_⟩
            rw [byteLength_cons, length, Nat.add_sub_of_le fits]
          case isFalse => exact Bool.noConfusion boundary

variable (source : Source)

theorem offset?_position {offset : Nat} (boundary : source.isBoundary offset = true) :
    source.offset? (source.position offset) = some offset := by
  rcases exists_split_of_isBoundary boundary with ⟨before, after, split, length⟩
  rcases exists_lines before with ⟨passed, line, same, unbroken, last, counted⟩
  rw [position, split, ← length, Position.advance_append, counted]
  change bytesTo? source.lines passed.length line.length = some (byteLength before)
  rw [lines, split, same]
  exact bytesTo?_lines passed unbroken last after

theorem precedes_of_lt {offset later : Nat} (boundary : source.isBoundary offset = true)
    (other : source.isBoundary later = true) (less : offset < later) :
    (source.position offset).Precedes (source.position later) := by
  rcases exists_split_of_isBoundary boundary with ⟨before, after, split, length⟩
  rcases exists_split_of_isBoundary other with ⟨longer, rest, whole, total⟩
  rcases List.append_eq_append_iff.mp (split.symm.trans whole) with
    ⟨between, further, _⟩ | ⟨between, back, _⟩
  · have notEmpty : between ≠ [] := by
      intro empty
      rw [further, empty, List.append_nil, length] at total
      exact Nat.ne_of_lt less total
    rw [position, position, split, ← length, Position.advance_append, ← split, whole, ← total,
      Position.advance_append, further, List.foldl_append]
    exact Position.precedes_text notEmpty _
  · rw [back, byteLength_append, total] at length
    omega

end Source

/-! ## Diagnostics -/

/-- The range of a diagnostic is a range of the source, and the position that it
shows is worked out there. -/
structure Diagnostic.LiesIn (source : Source) (diagnostic : Diagnostic) : Prop where
  ordered : diagnostic.span.start ≤ diagnostic.span.stop
  inside : diagnostic.span.stop ≤ source.size
  begins : source.isBoundary diagnostic.span.start = true
  ends : source.isBoundary diagnostic.span.stop = true
  placed : source.diagnose? diagnostic.span diagnostic.problem = some diagnostic

namespace Source

variable {source : Source}

theorem alike_self (source : Source) : List.Forall₂ Token.Alike source.tokens source.tokens :=
  alike_of_words rfl

/-- What is said about a range of the source lies in the source. -/
theorem liesIn_diagnose {span : Span} (ordered : span.start ≤ span.stop)
    (inside : span.stop ≤ source.size) (begins : source.isBoundary span.start = true)
    (ends : source.isBoundary span.stop = true) (problem : Problem) :
    (source.diagnose span problem).LiesIn source := by
  refine ⟨ordered, inside, begins, ends, if_pos ?_⟩
  change source.isBoundary (min span.start source.size) = true
  rw [Nat.min_eq_left (Nat.le_trans ordered inside)]
  exact begins

/-- The range of a token lies in the source, and so does the range of the end. -/
theorem liesIn_tokenAt (source : Source) (place : Nat) (problem : Problem) :
    (source.diagnose (source.tokenAt place).span problem).LiesIn source := by
  unfold tokenAt
  cases found : source.tokens[place]? with
  | none =>
      exact liesIn_diagnose (Nat.le_refl source.size) (Nat.le_refl source.size)
        source.isBoundary_size source.isBoundary_size problem
  | some token =>
      have covers := source.covers_of_mem_tokens (List.mem_of_getElem? found)
      exact liesIn_diagnose (Nat.le_of_lt covers.notEmpty) covers.inside covers.begins
        covers.ends problem

end Source

namespace Reader

variable {source : Source} {width : Nat} {reader : Reader}

/-- What a reader has said is said about tokens. -/
theorem Parallel.liesIn (parallel : Parallel source source width reader reader)
    {diagnostic : Diagnostic} (reported : diagnostic ∈ reader.diagnostics) :
    diagnostic.LiesIn source := by
  rcases exists_related_of_mem parallel.diagnostics reported with
    ⟨_, _, place, problem, _, same, _⟩
  exact same ▸ source.liesIn_tokenAt place problem

/-- A reader keeps to the tokens of its source over any calls. -/
theorem Parallel.calls (wide : minimumLookAhead ≤ width) (calls : List Call)
    (parallel : Parallel source source width reader reader) :
    Parallel source source width (Call.applyAll calls reader) (Call.applyAll calls reader) := by
  induction calls generalizing reader with
  | nil => exact parallel
  | cons call rest ih =>
      let c := Parallel.correspondence wide source.alike_self
      have related : c.relates 0 reader reader := parallel
      refine ih ?_
      cases call with
      | factBlock => exact c.factBlock related
      | precondition =>
          have read : Parallel source source width reader.precondition.2 reader.precondition.2 :=
            (c.precondition related).1
          -- The expression is planted, and nothing but the forest changes.
          exact ⟨read.windows, read.isSource, read.isOther, read.validates, rfl, read.worlds,
            read.diagnostics⟩

/-- Whatever is read, in whatever order, all that is said lies in the source. -/
theorem liesIn_of_reported (options : Options) (calls : List Call) {diagnostic : Diagnostic}
    (reported : diagnostic ∈ (Call.applyAll calls (start source options)).diagnostics ∨
      diagnostic ∈ (Call.applyAll calls (start source options)).finish.2) :
    diagnostic.LiesIn source := by
  have wide : minimumLookAhead ≤ max options.lookAhead minimumLookAhead := Nat.le_max_right _ _
  have called := (Parallel.start source source options).calls wide calls
  rcases reported with soFar | inTheEnd
  · exact called.liesIn soFar
  · let c := Parallel.correspondence wide source.alike_self
    have related : c.relates 0 _ _ := called
    have ended : Parallel source source _ _ _ := (c.preconditions _ related).1
    exact ended.liesIn inTheEnd

end Reader

/-! ## The main result -/

/-- From the position of a boundary one finds the boundary, and later boundaries have
later positions.  Whatever is read, in whatever order, every diagnostic covers a
range of the source between two boundaries and has the position of its beginning. -/
theorem Source.positions_faithful (source : Source) :
    (forall offset, source.isBoundary offset = true ->
      source.offset? (source.position offset) = some offset) ∧
      (forall offset later, source.isBoundary offset = true -> source.isBoundary later = true ->
        offset < later -> (source.position offset).Precedes (source.position later)) ∧
      forall options calls diagnostic,
        diagnostic ∈ (Call.applyAll calls (Reader.start source options)).diagnostics ∨
            diagnostic ∈ (Call.applyAll calls (Reader.start source options)).finish.2 ->
          diagnostic.LiesIn source :=
  ⟨fun _ => source.offset?_position, fun _ _ => source.precedes_of_lt,
    fun options calls _ => Reader.liesIn_of_reported options calls⟩

/-- Behind a remark with a letter of two bytes, the second line begins at offset 6, and a
word that begins no precondition is its second character. -/
theorem Source.positions_faithful_second_line :
    let source := Source.ofString "// ä\n a"
    let missing : Diagnostic := ⟨⟨7, 8⟩, ⟨2, 2⟩, .unexpected .preconditionStart .identifier⟩
    source.position 7 = missing.position ∧ source.offset? missing.position = some 7 ∧
      (source.position 6).Precedes missing.position ∧
      (Call.applyAll [.precondition] (Reader.start source .standard)).diagnostics = [missing] ∧
      missing.LiesIn source := by
  intro source missing
  rcases source.positions_faithful with ⟨found, ordered, lies⟩
  have position : source.position 7 = missing.position := by decide
  have reported :
      (Call.applyAll [.precondition] (Reader.start source .standard)).diagnostics = [missing] := by
    decide +kernel
  refine ⟨position, position ▸ found 7 (by decide),
    position ▸ ordered 6 7 (by decide) (by decide) (by decide), reported, ?_⟩
  exact lies .standard [.precondition] missing
    (Or.inl (reported ▸ List.mem_singleton_self missing))

end PlanningDomain
