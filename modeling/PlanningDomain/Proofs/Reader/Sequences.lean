import PlanningDomain.Proofs.Machine.Total
import PlanningDomain.Proofs.Reader.Groups
import PlanningDomain.Proofs.Token.Excerpts

namespace PlanningDomain

/-!
# Sequences of groups

A source may consist of groups only, one after the other.  However malformed these
are inside, each of them yields one precondition, and each problem that is found
belongs to one of them.  What a group yields is what it yields on its own, as the
whole of a source.
-/

namespace Reader

/-- Whatever was asked for before, a reader has the rest of its source in front of
it. -/
theorem faces_calls (source : Source) (options : Options) (calls : List Call) :
    Exists fun passed : List Token => Exists fun rest : List Token =>
      source.tokens = passed ++ rest ∧
        (Call.applyAll calls (start source options)).Faces rest := by
  rcases (Machine.calls_run calls _ (Machine.Keeps.start source options)).1 _
    (Machine.follows_start source options) with ⟨machine, _, follows⟩
  rcases follows.place with ⟨rest, split, window⟩
  have belongs : forall token, token ∈ rest -> token ∈ source.tokens :=
    fun token member => split ▸ List.mem_append_right _ member
  refine ⟨machine.passed, rest, split, ?_, by rw [follows.ofReader]; exact belongs⟩
  rw [Shows, window]
  exact Window.shows_start (Nat.le_max_right _ _)
    (fun token member => source.isInput_of_mem_tokens token (belongs token member)) _

end Reader

/-! ## Groups in a row -/

/-- The transcript that a group has wherever its words stand, for a world and for
one way of checking calls. -/
def Group.HasTranscript (world : World) (validates : Bool) (group : Group)
    (transcript : Transcript) : Prop :=
  forall (reader : Reader) (like : Group) (rest : List Token),
    reader.Faces (like.tokens ++ rest) -> List.Forall₂ Token.Alike group.tokens like.tokens ->
      reader.world = world -> reader.options.validateFacts = validates ->
        reader.transcript = transcript

namespace Reader

/-- A reader in front of some groups reads one precondition for each of them, and
reports nothing but what belongs to them. -/
theorem preconditions_of_groups (groups : List Group) (reader : Reader)
    (faces : reader.Faces (groups.flatMap Group.tokens)) :
    Exists fun transcripts : List Transcript =>
      List.Forall₂ (Group.HasTranscript reader.world reader.options.validateFacts) groups
        transcripts ∧
      List.Forall₂ (fun tree transcript => tree.dump? reader.source = transcript.dump ∧
        tree.payloads? reader.source = transcript.payloads) reader.preconditions.1 transcripts ∧
      Exists fun found : List Diagnostic =>
        reader.preconditions.2.diagnostics = reader.diagnostics ++ found ∧
          found.map Diagnostic.message = transcripts.flatMap Transcript.messages := by
  induction groups generalizing reader with
  | nil =>
      rw [preconditions_of_end faces.shows.sees_end]
      exact ⟨[], .nil, .nil, [], (List.append_nil _).symm, rfl⟩
  | cons group rest ih =>
      rw [List.flatMap_cons] at faces
      have opens := (group.tokens_append _ ▸ faces).shows.sees_of group.opens
      rcases (precondition_steps opens).unchanged with ⟨world, options, source⟩
      rcases (precondition_steps opens).noted with ⟨first, noted⟩
      rcases ih _ (faces_precondition faces) with
        ⟨transcripts, groups, trees, others, later, messages⟩
      rw [world, options] at groups
      rw [source] at trees
      refine ⟨reader.transcript :: transcripts, .cons ?_ groups, ?_, first ++ others, ?_, ?_⟩
      · exact fun other like others otherFaces alike sameWorld validates =>
          (transcript_of_groups faces otherFaces alike sameWorld.symm validates.symm).symm
      · rw [preconditions_of_opens opens]
        exact .cons ⟨rfl, rfl⟩ trees
      · rw [preconditions_of_opens opens, later, ← noted, List.append_assoc]
      · rw [List.flatMap_cons, ← messages, List.map_append, transcript, ← noted, List.drop_left]

/-- A reader in front of one group reads the one precondition that the group has. -/
theorem preconditions_of_group {group : Group} {reader : Reader}
    (faces : reader.Faces group.tokens) :
    Exists fun tree : Node => reader.preconditions.1 = [tree] ∧
      tree.dump? reader.source = reader.transcript.dump ∧
      tree.payloads? reader.source = reader.transcript.payloads ∧
      Exists fun found : List Diagnostic =>
        reader.preconditions.2.diagnostics = reader.diagnostics ++ found ∧
          found.map Diagnostic.message = reader.transcript.messages := by
  rw [← List.append_nil group.tokens] at faces
  have opens := (group.tokens_append _ ▸ faces).shows.sees_of group.opens
  rcases (precondition_steps opens).noted with ⟨found, noted⟩
  refine ⟨reader.precondition.1, ?_, rfl, rfl, found, ?_, ?_⟩
  · rw [preconditions_of_opens opens,
      preconditions_of_end (faces_precondition faces).shows.sees_end]
  · rw [preconditions_of_opens opens,
      preconditions_of_end (faces_precondition faces).shows.sees_end, noted]
  · rw [transcript, ← noted, List.drop_left]

end Reader

/-! ## Domains -/

theorem exists_between {alpha beta gamma : Type} {relates : alpha -> gamma -> Prop}
    {before : alpha -> beta -> Prop} {behind : beta -> gamma -> Prop} {first : List alpha}
    {last : List gamma} (related : List.Forall₂ relates first last)
    (between : forall one, one ∈ first -> forall other, relates one other ->
      Exists fun middle : beta => before one middle ∧ behind middle other) :
    Exists fun middles : List beta =>
      List.Forall₂ before first middles ∧ List.Forall₂ behind middles last := by
  induction related with
  | nil => exact ⟨[], .nil, .nil⟩
  | cons head _ ih =>
      rcases between _ List.mem_cons_self _ head with ⟨middle, left, right⟩
      rcases ih (fun one member => between one (List.mem_cons_of_mem _ member)) with
        ⟨middles, lefts, rights⟩
      exact ⟨middle :: middles, .cons left lefts, .cons right rights⟩

theorem forall₂_join {alpha beta gamma : Type} {relates : alpha -> gamma -> Prop}
    {others : beta -> gamma -> Prop} {first : List alpha} {second : List beta}
    {common : List gamma} (left : List.Forall₂ relates first common)
    (right : List.Forall₂ others second common) :
    List.Forall₂ (fun one other => Exists fun shared : gamma =>
      relates one shared ∧ others other shared) first second := by
  induction left generalizing second with
  | nil =>
      cases right
      exact .nil
  | cons head _ ih =>
      cases right with
      | cons also rest => exact .cons ⟨_, head, also⟩ (ih rest)

namespace Domain

/-- The dump and the values of the constants of a precondition, as they are found in
the arena of a domain. -/
def Tells (domain : Domain) (root : Handle) (dump : String) (payloads : List Payload) : Prop :=
  Exists fun tree : Node => domain.arena.Reads root tree ∧
    tree.dump? domain.source = some dump ∧ tree.payloads? domain.source = some payloads

/-- A tree that was read is told by the domain, with the texts that it has. -/
theorem tells_of_mem {source : Source} {options : Options} {tree : Node}
    (member : tree ∈ (Reader.start source options).preconditions.1) :
    Exists fun dump : String => Exists fun payloads : List Payload =>
      tree.dump? source = some dump ∧ tree.payloads? source = some payloads ∧
        (read source options).1.Tells tree.handle dump payloads := by
  have alike := ((Reader.written source).preconditions _
    (Reader.written_relates (Reader.within_start source options))).2
  rcases exists_related_of_mem alike member with ⟨_, _, related⟩
  rcases Option.isSome_iff_exists.mp (Reader.texts_of_written related).1 with ⟨dump, isDump⟩
  rcases Option.isSome_iff_exists.mp (Reader.payloads_of_written related) with
    ⟨payloads, arePayloads⟩
  refine ⟨dump, payloads, isDump, arePayloads, tree,
    (Machine.stores_read source options).reads_of_mem member, ?_⟩
  rw [source_read]
  exact ⟨isDump, arePayloads⟩

/-- The domain of a source that is one group. -/
theorem read_of_group {group : Group} {own : Source} (options : Options)
    (tokens : own.tokens = group.tokens) :
    Exists fun only : Handle => Exists fun dump : String =>
      Exists fun payloads : List Payload =>
        (read own options).1.preconditions = [only] ∧
          (read own options).1.Tells only dump payloads ∧
          (Reader.start own options).transcript =
            ⟨some dump, some payloads, (read own options).2.map Diagnostic.message⟩ := by
  have faces : (Reader.start own options).Faces group.tokens :=
    tokens ▸ Reader.Faces.start own options
  rcases Reader.preconditions_of_group faces with
    ⟨tree, only, isDump, arePayloads, found, diagnostics, messages⟩
  have member : tree ∈ (Reader.start own options).preconditions.1 :=
    only ▸ List.mem_cons_self
  rcases tells_of_mem member with ⟨dump, payloads, sameDump, samePayloads, tells⟩
  refine ⟨tree.handle, dump, payloads, congrArg (List.map Node.handle) only, tells, ?_⟩
  have reported : (read own options).2 = found := diagnostics
  have sameSource : (Reader.start own options).source = own := rfl
  rw [sameSource] at isDump arePayloads
  rw [reported, messages, ← sameDump, ← samePayloads, isDump, arePayloads]

/-- Each group of a source is a source on its own, with the transcript that the
group has. -/
theorem exists_own {source : Source} {options : Options} {groups : List Group}
    (tokens : source.tokens = groups.flatMap Group.tokens) {group : Group}
    (member : group ∈ groups) {transcript : Transcript}
    (has : group.HasTranscript .empty options.validateFacts transcript) :
    Exists fun own : String => source.slice? group.span = some own ∧
      Exists fun only : Handle => Exists fun dump : String =>
        Exists fun payloads : List Payload =>
          (read (.ofString own) options).1.preconditions = [only] ∧
            (read (.ofString own) options).1.Tells only dump payloads ∧
            transcript = ⟨some dump, some payloads,
              (read (.ofString own) options).2.map Diagnostic.message⟩ := by
  rcases List.append_of_mem member with ⟨before, after, split⟩
  rw [split, List.flatMap_append, List.flatMap_cons] at tokens
  rcases source.exists_excerpt group tokens with ⟨own, isOwn, alike⟩
  rcases Group.exists_alike alike with ⟨like, same, _, _⟩
  rcases read_of_group options same with ⟨only, dump, payloads, one, tells, told⟩
  have faces := Reader.Faces.start (.ofString own) options
  rw [same, ← List.append_nil like.tokens] at faces
  exact ⟨own, isOwn, only, dump, payloads, one, tells,
    (has _ like [] faces (same ▸ alike) rfl rfl).symm.trans told⟩

/-- The domain of a source that is a sequence of groups has the preconditions that
the groups have on their own, and the messages about it are those about them. -/
theorem read_of_groups {source : Source} (options : Options) {groups : List Group}
    (tokens : source.tokens = groups.flatMap Group.tokens) :
    Exists fun owns : List String =>
      List.Forall₂ (fun group own => source.slice? group.span = some own) groups owns ∧
      List.Forall₂ (fun root own => Exists fun only : Handle => Exists fun dump : String =>
        Exists fun payloads : List Payload =>
          (read source options).1.Tells root dump payloads ∧
            (read (.ofString own) options).1.preconditions = [only] ∧
            (read (.ofString own) options).1.Tells only dump payloads)
        (read source options).1.preconditions owns ∧
      (read source options).2.map Diagnostic.message =
        owns.flatMap (fun own => (read (.ofString own) options).2.map Diagnostic.message) := by
  have faces : (Reader.start source options).Faces (groups.flatMap Group.tokens) :=
    tokens ▸ Reader.Faces.start source options
  rcases Reader.preconditions_of_groups groups _ faces with
    ⟨transcripts, known, trees, found, diagnostics, messages⟩
  have own (group : Group) (member : group ∈ groups) (transcript : Transcript)
      (has : group.HasTranscript .empty options.validateFacts transcript) :=
    exists_own tokens member has
  rcases exists_between known own with ⟨owns, excerpts, told⟩
  refine ⟨owns, excerpts, ?_, ?_⟩
  · have members := (List.forall₂_and_left _ _).mpr ⟨fun tree member => member, trees⟩
    refine List.forall₂_map_left_iff.mpr ((forall₂_join members told).imp ?_)
    rintro tree own ⟨_, ⟨member, isDump, arePayloads⟩, only, dump, payloads, one, tells, rfl⟩
    rcases tells_of_mem member with ⟨same, others, sameDump, sameOthers, treeTells⟩
    rw [show (Reader.start source options).source = source from rfl] at isDump arePayloads
    cases sameDump.symm.trans isDump
    cases sameOthers.symm.trans arePayloads
    exact ⟨only, dump, payloads, treeTells, one, tells⟩
  · have reported : (read source options).2 = found := diagnostics
    rw [reported, messages]
    clear known trees messages excerpts own
    induction told with
    | nil => rfl
    | cons first _ ih =>
        rcases first with ⟨_, _, _, _, _, same⟩
        rw [List.flatMap_cons, List.flatMap_cons, ih, same]

end Domain

namespace Reader

/-! ## Errors stay inside of groups -/

/-- In every state, a reader has the rest of its source in front of it.  In front of
a group it reads up to the end of that group, and what comes of it depends on
nothing else.  In front of a parenthesis that is never closed it reads everything
and reports that parenthesis.  A sequence of groups has the preconditions and the
messages that its groups have on their own. -/
theorem errors_stay_inside :
    (forall (source : Source) (options : Options) (calls : List Call),
      Exists fun passed : List Token => Exists fun rest : List Token =>
        source.tokens = passed ++ rest ∧
          (Call.applyAll calls (start source options)).Faces rest) ∧
    (forall (reader : Reader) (group : Group) (rest : List Token),
      reader.Faces (group.tokens ++ rest) ->
        reader.precondition.2.Faces rest ∧
        (reader.transcript.dump.isSome = true ∧ reader.transcript.payloads.isSome = true) ∧
        group.HasTranscript reader.world reader.options.validateFacts reader.transcript) ∧
    (forall (reader : Reader) (opening : Token) (tokens : List Token),
      reader.Shows (opening :: tokens) -> opening.kind = .leftParen ->
        (forall (group : Group) (rest : List Token), opening :: tokens ≠ group.tokens ++ rest) ->
          reader.precondition.2.Shows [] ∧ Exists fun found : List Diagnostic =>
            reader.precondition.2.diagnostics = reader.diagnostics ++ found ++
              [reader.source.diagnose opening.span .unbalancedParen]) ∧
    (forall (source : Source) (options : Options) (groups : List Group),
      source.tokens = groups.flatMap Group.tokens ->
        Exists fun owns : List String =>
          List.Forall₂ (fun group own => source.slice? group.span = some own) groups owns ∧
          List.Forall₂ (fun root own => Exists fun only : Handle => Exists fun dump : String =>
            Exists fun payloads : List Payload =>
              (Domain.read source options).1.Tells root dump payloads ∧
                (Domain.read (.ofString own) options).1.preconditions = [only] ∧
                (Domain.read (.ofString own) options).1.Tells only dump payloads)
            (Domain.read source options).1.preconditions owns ∧
          (Domain.read source options).2.map Diagnostic.message = owns.flatMap
            (fun own => (Domain.read (.ofString own) options).2.map Diagnostic.message)) := by
  refine ⟨faces_calls, fun reader group rest faces => ?_,
    fun reader opening tokens shows isOpening unmatched => ?_,
    fun source options groups tokens => Domain.read_of_groups options tokens⟩
  · have written := ((written reader.source).precondition (written_relates faces.within)).2
    exact ⟨faces_precondition faces,
      ⟨(texts_of_written written).1, payloads_of_written written⟩,
      fun other like others otherFaces alike world validates =>
        (transcript_of_groups faces otherFaces alike world.symm validates.symm).symm⟩
  · exact precondition_of_unclosed shows isOpening
      (Group.openAfter_ne_none_of_unmatched isOpening unmatched)

/-- The group of `(a &)` at the beginning of a source. -/
def missingOperand : Group where
  opening := ⟨.leftParen, ⟨0, 1⟩, "("⟩
  inside := [⟨.identifier, ⟨1, 2⟩, "a"⟩, ⟨.and, ⟨3, 4⟩, "&"⟩]
  closing := ⟨.rightParen, ⟨4, 5⟩, ")"⟩
  opens := rfl
  balanced := rfl
  closes := rfl

/-- The group of `(f(,))` behind it. -/
def missingArguments : Group where
  opening := ⟨.leftParen, ⟨5, 6⟩, "("⟩
  inside := [⟨.identifier, ⟨6, 7⟩, "f"⟩, ⟨.leftParen, ⟨7, 8⟩, "("⟩, ⟨.comma, ⟨8, 9⟩, ","⟩,
    ⟨.rightParen, ⟨9, 10⟩, ")"⟩]
  closing := ⟨.rightParen, ⟨10, 11⟩, ")"⟩
  opens := rfl
  balanced := rfl
  closes := rfl

/-- Two malformed groups in a row, and a group without an end. -/
theorem errors_stay_inside_malformed :
    let source := Source.ofString "(a &)(f(,))"
    let unclosed := Source.ofString "(a"
    let opening : Token := ⟨.leftParen, ⟨0, 1⟩, "("⟩
    let name : Token := ⟨.identifier, ⟨1, 2⟩, "a"⟩
    ((start source .standard).Faces (missingOperand.tokens ++ missingArguments.tokens) ∧
      (start source .standard).precondition.2.Faces missingArguments.tokens) ∧
    ((start unclosed .standard).Shows [opening, name] ∧
      (forall (group : Group) (rest : List Token), [opening, name] ≠ group.tokens ++ rest) ∧
      (start unclosed .standard).precondition.2.Shows []) ∧
    source.tokens = [missingOperand, missingArguments].flatMap Group.tokens ∧
    (Domain.read source .standard).2.map Diagnostic.message =
      (Domain.read (.ofString "(a &)") .standard).2.map Diagnostic.message ++
        (Domain.read (.ofString "(f(,))") .standard).2.map Diagnostic.message := by
  intro source unclosed opening name
  have tokens : source.tokens = [missingOperand, missingArguments].flatMap Group.tokens := by
    decide +kernel
  have unclosedTokens : unclosed.tokens = [opening, name] := by decide +kernel
  have faces := Faces.start source .standard
  rw [tokens, List.flatMap_cons, List.flatMap_singleton] at faces
  have shows : (start unclosed .standard).Shows [opening, name] :=
    unclosedTokens ▸ shows_start unclosed .standard
  have unmatched (group : Group) (rest : List Token) : [opening, name] ≠ group.tokens ++ rest := by
    intro same
    rw [group.tokens_append] at same
    have member : group.closing ∈ [name] :=
      (List.cons.inj same).2 ▸ List.mem_append_right _ List.mem_cons_self
    have closes := group.closes
    rw [List.mem_singleton.mp member] at closes
    exact TokenKind.noConfusion closes
  rcases errors_stay_inside with ⟨_, inside, ended, sequences⟩
  refine ⟨⟨faces, (inside _ missingOperand _ faces).1⟩,
    ⟨shows, unmatched, (ended _ opening _ shows rfl unmatched).1⟩, tokens, ?_⟩
  rcases sequences source .standard _ tokens with ⟨owns, excerpts, _, messages⟩
  rcases List.forall₂_cons_left_iff.mp excerpts with ⟨first, others, isFirst, later, split⟩
  rcases List.forall₂_cons_left_iff.mp later with ⟨second, none, isSecond, behind, ends⟩
  cases behind
  have firstText : source.slice? missingOperand.span = some "(a &)" := by decide +kernel
  have secondText : source.slice? missingArguments.span = some "(f(,))" := by decide +kernel
  cases firstText.symm.trans isFirst
  cases secondText.symm.trans isSecond
  rw [messages, split, ends, List.flatMap_cons, List.flatMap_singleton]

end Reader

end PlanningDomain
