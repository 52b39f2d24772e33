import PlanningDomain.Proofs.Machine.Total
import PlanningDomain.Proofs.Reader.Calls
import PlanningDomain.Proofs.Reader.Summaries

namespace PlanningDomain

/-!
# What the check of calls reports

The check of calls adds reports and changes nothing else.  What it adds can be
told from the domain that is read: one report for each call that stands behind the
declaration of some fact, and disagrees with the facts declared before it.  The
reports come in the order in which the calls come to their ends.

A reader stands between the tokens that it has passed and those still to come.
The facts of its world are declared in the first part, and the calls that it will
read stand in the second.  Therefore the facts that were declared when a call was
checked are those whose names stand before the name of the call.
-/

namespace Node

mutual

/-- All nodes of an expression, each behind the nodes below it and those behind
the nodes to their left. -/
def postorder : Node -> List Node
  | mk handle kind children => postorderAll children ++ [mk handle kind children]

def postorderAll : List Node -> List Node
  | [] => []
  | node :: rest => node.postorder ++ postorderAll rest

end

theorem postorderAll_append (nodes others : List Node) :
    postorderAll (nodes ++ others) = postorderAll nodes ++ postorderAll others := by
  induction nodes with
  | nil => rfl
  | cons node rest ih => rw [List.cons_append, postorderAll, postorderAll, ih, List.append_assoc]

theorem postorderAll_singleton (handle : Handle) (kind : Kind) (children : List Node) :
    postorderAll [mk handle kind children] = postorderAll children ++ [mk handle kind children] := by
  rw [postorderAll, postorderAll, postorder, List.append_nil]

end Node

/-! ## Complaints -/

/-- What is wrong about a call with a number of arguments, given the facts that
are declared.  If there are none, the call is not checked. -/
def Fact.problemOfCall? (facts : List Fact) (name : String) (found : Nat) : Option Problem :=
  if facts.isEmpty then none
  else
    match facts.find? (fun fact => fact.name == name) with
    | none => some (.unknownFact name)
    | some fact =>
        if fact.arity = found then none else some (.wrongArity name fact.arity found)

/-- What is read earlier stands before what is read later. -/
theorem Source.start_lt_of_split {source : Source} {first later : List Token}
    (split : source.tokens = first ++ later) {token other : Token} (isFirst : token ∈ first)
    (isLater : other ∈ later) : token.span.start < other.span.start := by
  have isToken : token ∈ source.tokens := split ▸ List.mem_append_left _ isFirst
  have ordered := source.tokens_ordered
  rw [split] at ordered
  exact Nat.lt_of_lt_of_le (source.start_lt_stop_of_mem_tokens isToken)
    ((List.pairwise_append.mp ordered).2.2 token isFirst other isLater)

namespace World

/-- The facts whose names stand before a place of the source. -/
def declaredBefore (world : World) (place : Nat) : List Fact :=
  world.facts.filter (fun fact => fact.span.start < place)

/-- What is to be reported about a node: nothing unless it is a call, and nothing
about a call that agrees with the facts declared before it. -/
def complaint? (world : World) (source : Source) (node : Node) : Option Diagnostic :=
  match node.kind with
  | .func name =>
      (source.slice? name).bind (fun text =>
        (Fact.problemOfCall? (world.declaredBefore name.start) text node.children.length).map
          (source.diagnose name))
  | _ => none

variable {world later : World} {source : Source}

theorem complaint?_of_not_call {node : Node} (notCall : forall name : Span, node.kind ≠ .func name) :
    world.complaint? source node = none := by
  unfold complaint?
  split
  case h_1 name isCall => exact (notCall name isCall).elim
  case h_2 => rfl

/-- A call is compared with the facts that are declared before it. -/
theorem complaint?_of_call {name : Token} (member : name ∈ source.tokens)
    (declared : world.declaredBefore name.span.start = world.facts) (handle : Handle)
    (children : List Node) :
    world.complaint? source (.mk handle (.func name.span) children) =
      (Fact.problemOfCall? world.facts name.text children.length).map
        (source.diagnose name.span) := by
  have text := (source.stands_of_mem_tokens member).slice?_eq
  simp only [complaint?, Node.kind_mk, Node.children_mk, text, declared, Option.bind_some]

/-- What is declared behind a call does not matter to it. -/
theorem complaint?_eq {node : Node} (same : forall name : Span, node.kind = .func name ->
    later.declaredBefore name.start = world.declaredBefore name.start) :
    later.complaint? source node = world.complaint? source node := by
  unfold complaint?
  split
  case h_1 name isCall => rw [same name isCall]
  case h_2 => rfl

/-- The reports about all calls of some expressions, if calls are checked. -/
def complaints (world : World) (source : Source) (validates : Bool) (nodes : List Node) :
    List Diagnostic :=
  if validates then (Node.postorderAll nodes).filterMap (world.complaint? source) else []

variable {validates : Bool}

theorem complaints_nil : world.complaints source validates [] = [] := by
  unfold complaints
  split <;> rfl

theorem complaints_append (nodes others : List Node) :
    world.complaints source validates (nodes ++ others) =
      world.complaints source validates nodes ++ world.complaints source validates others := by
  cases validates with
  | false => rfl
  | true => simp only [complaints, if_true, Node.postorderAll_append, List.filterMap_append]

/-- The report about a node comes behind those about its operands. -/
theorem complaints_node (handle : Handle) (kind : Kind) (children : List Node) :
    world.complaints source validates [.mk handle kind children] =
      world.complaints source validates children ++
        if validates then (world.complaint? source (.mk handle kind children)).toList else [] := by
  cases validates with
  | false => rfl
  | true =>
      simp only [complaints, if_true, Node.postorderAll_singleton, List.filterMap_append]
      exact congrArg _ List.filterMap_cons

theorem complaints_of_not_call {handle : Handle} {kind : Kind} {children : List Node}
    (notCall : forall name : Span, kind ≠ .func name) :
    world.complaints source validates [.mk handle kind children] =
      world.complaints source validates children := by
  have none : world.complaint? source (.mk handle kind children) = none :=
    complaint?_of_not_call notCall
  rw [complaints_node, none, Option.toList_none, ite_self, List.append_nil]

theorem complaints_eq {nodes : List Node}
    (same : forall inner, inner ∈ Node.postorderAll nodes -> forall name : Span,
      inner.kind = .func name ->
        later.declaredBefore name.start = world.declaredBefore name.start) :
    later.complaints source validates nodes = world.complaints source validates nodes := by
  cases validates with
  | false => rfl
  | true =>
      exact List.filterMap_congr (fun inner member => complaint?_eq (same inner member))

end World

namespace Diagnostic

/-- Whether a diagnostic is one of those that the check of calls makes. -/
def concernsCall (diagnostic : Diagnostic) : Bool :=
  diagnostic.problem.concernsCall

end Diagnostic

namespace Reader

/-- The check of a call finds what is wrong with it. -/
theorem callProblem?_eq (reader : Reader) (name : Token) (found : Nat) :
    reader.callProblem? name found = if reader.options.validateFacts then
      Fact.problemOfCall? reader.world.facts name.text found else none := by
  unfold callProblem? Fact.problemOfCall? World.find? World.isEmpty
  cases reader.options.validateFacts with
  | false => rfl
  | true =>
      cases reader.world.facts.isEmpty with
      | true => rfl
      | false => rfl

/-- The check of a call adds a report to what was noted, and nothing else. -/
theorem checkCall_noted (reader : Reader) (name : Token) (found : Nat) :
    reader.checkCall name found = { reader with
      diagnostics := reader.diagnostics ++
        ((reader.callProblem? name found).map (reader.source.diagnose name.span)).toList } := by
  rw [checkCall_eq]
  cases reader.callProblem? name found with
  | none =>
      exact congrArg (fun noted => { reader with diagnostics := noted }) (List.append_nil _).symm
  | some problem => rfl

/-- All that a check of a call reports concerns calls. -/
theorem filter_checkCall (reader : Reader) (name : Token) (found : Nat) :
    ((reader.callProblem? name found).map (reader.source.diagnose name.span)).toList.filter
        Diagnostic.concernsCall =
      ((reader.callProblem? name found).map (reader.source.diagnose name.span)).toList := by
  cases wrong : reader.callProblem? name found with
  | none => rfl
  | some problem => exact List.filter_cons_of_pos (names_of_callProblem wrong).1

/-- A reader stands between the tokens that it has passed and those still to come,
and all facts of its world are declared in the former. -/
structure Between (reader : Reader) (passed coming : List Token) : Prop where
  split : reader.source.tokens = passed ++ coming
  shows : reader.Shows coming
  declared : forall fact, fact ∈ reader.world.facts ->
    Exists fun token : Token => token ∈ passed ∧ token.span = fact.span

namespace Between

variable {reader : Reader} {passed coming : List Token}

theorem start (source : Source) (options : Options) :
    (Reader.start source options).Between [] source.tokens where
  split := rfl
  shows := shows_start source options
  declared := fun _ impossible => (List.not_mem_nil impossible).elim

theorem advance (between : reader.Between passed coming)
    (notEnded : reader.sees .endOfInput = false) :
    Exists fun rest : List Token => coming = reader.current :: rest ∧
      reader.advance.Between (passed ++ [reader.current]) rest := by
  have shows := between.shows
  cases coming with
  | nil => exact (Bool.eq_false_iff.mp notEnded shows.sees_end).elim
  | cons token rest =>
      refine ⟨rest, by rw [shows.current_eq], ?_, shows.advance, fun fact isFact => ?_⟩
      · rw [shows.current_eq, List.append_assoc]
        exact between.split
      · rcases between.declared fact isFact with ⟨other, member, span⟩
        exact ⟨other, List.mem_append_left _ member, span⟩

/-- All facts that are declared already stand before what is still to come. -/
theorem declaredBefore_eq (between : reader.Between passed coming) {token : Token}
    (member : token ∈ coming) :
    reader.world.declaredBefore token.span.start = reader.world.facts := by
  refine List.filter_eq_self.mpr (fun fact isFact => decide_eq_true ?_)
  rcases between.declared fact isFact with ⟨other, isOther, span⟩
  exact span ▸ Source.start_lt_of_split between.split isOther member

end Between

/-- What is declared by later tokens stands behind. -/
theorem Gains.declaredBefore_eq {source : Source} {world later : World} {read more : List Token}
    (gains : Gains world later more) {passed rest : List Token}
    (split : source.tokens = (passed ++ read) ++ (more ++ rest)) {token : Token}
    (member : token ∈ read) :
    later.declaredBefore token.span.start = world.declaredBefore token.span.start := by
  rcases gains with ⟨added, facts, declared⟩
  have behind : added.filter (fun fact => fact.span.start < token.span.start) = [] := by
    refine List.filter_eq_nil_iff.mpr (fun fact isFact before => ?_)
    rcases declared fact isFact with ⟨other, isOther, span⟩
    have follows := Source.start_lt_of_split split (List.mem_append_right _ member)
      (List.mem_append_left _ isOther)
    rw [span] at follows
    exact Nat.lt_asymm follows (of_decide_eq_true before)
  unfold World.declaredBefore
  rw [facts, List.filter_append, behind, List.append_nil]

/-! ## The reports of the check -/

/-- What was read between two readers, as far as calls and facts are concerned. -/
structure Judges (before after : Reader) (read : List Token) (nodes : List Node) : Prop where
  source : after.source = before.source
  options : after.options = before.options
  gains : Gains before.world after.world read
  calls : forall inner, inner ∈ Node.postorderAll nodes -> forall name : Span,
    inner.kind = .func name -> Exists fun token : Token => token ∈ read ∧ token.span = name
  noted : after.diagnostics.filter Diagnostic.concernsCall =
    before.diagnostics.filter Diagnostic.concernsCall ++
      after.world.complaints before.source before.options.validateFacts nodes

namespace Judges

variable {before middle after : Reader} {read more : List Token} {nodes others : List Node}

/-- Where no node is built, no call is judged. -/
theorem of_no_nodes (source : after.source = before.source)
    (options : after.options = before.options) (gains : Gains before.world after.world read)
    (noted : after.diagnostics.filter Diagnostic.concernsCall =
      before.diagnostics.filter Diagnostic.concernsCall) : Judges before after read [] where
  source := source
  options := options
  gains := gains
  calls := fun _ impossible => (List.not_mem_nil impossible).elim
  noted := by rw [noted, World.complaints_nil, List.append_nil]

/-- Facts that are declared in the second part are of no concern to the calls of
the first part. -/
theorem trans (first : Judges before middle read nodes) (later : Judges middle after more others)
    {passed rest : List Token} (split : before.source.tokens = (passed ++ read) ++ (more ++ rest)) :
    Judges before after (read ++ more) (nodes ++ others) where
  source := later.source.trans first.source
  options := later.options.trans first.options
  gains := first.gains.append later.gains
  calls := by
    intro inner member name isCall
    rw [Node.postorderAll_append] at member
    rcases List.mem_append.mp member with isFirst | isLater
    · rcases first.calls inner isFirst name isCall with ⟨token, isToken, span⟩
      exact ⟨token, List.mem_append_left _ isToken, span⟩
    · rcases later.calls inner isLater name isCall with ⟨token, isToken, span⟩
      exact ⟨token, List.mem_append_right _ isToken, span⟩
  noted := by
    have unchanged : after.world.complaints before.source before.options.validateFacts nodes =
        middle.world.complaints before.source before.options.validateFacts nodes := by
      refine World.complaints_eq (fun inner member name isCall => ?_)
      rcases first.calls inner member name isCall with ⟨token, isToken, span⟩
      rw [← span]
      exact later.gains.declaredBefore_eq split isToken
    rw [later.noted, first.noted, first.source, first.options, World.complaints_append,
      unchanged, List.append_assoc]

/-- A node that is no call adds nothing to the reports. -/
theorem node (judges : Judges before after read nodes) {kind : Kind}
    (notCall : forall name : Span, kind ≠ .func name) (handle : Handle) :
    Judges before after read [.mk handle kind nodes] where
  source := judges.source
  options := judges.options
  gains := judges.gains
  calls := by
    intro inner member name isCall
    rw [Node.postorderAll_singleton] at member
    rcases List.mem_append.mp member with below | isNode
    · exact judges.calls inner below name isCall
    · rw [List.mem_singleton.mp isNode] at isCall
      exact (notCall name isCall).elim
  noted := by rw [judges.noted, World.complaints_of_not_call notCall]

end Judges

/-- Wherever the reader before stands, some tokens are read, and what is said of
these holds. -/
def Reports (before : Reader) (nodes : List Node) (after : Reader) : Prop :=
  forall passed coming : List Token, before.Between passed coming ->
    Exists fun read : List Token => Exists fun rest : List Token => coming = read ++ rest ∧
      after.Between (passed ++ read) rest ∧ Judges before after read nodes

namespace Reports

variable {before middle after : Reader} {nodes others : List Node}

/-- Nothing is read where neither the window nor the world changes. -/
theorem of_same (source : after.source = before.source) (options : after.options = before.options)
    (window : after.window = before.window) (world : after.world = before.world)
    (noted : after.diagnostics.filter Diagnostic.concernsCall =
      before.diagnostics.filter Diagnostic.concernsCall) : Reports before [] after := by
  intro passed coming between
  refine ⟨[], coming, rfl, ⟨?_, ?_, ?_⟩, .of_no_nodes source options (world ▸ .same _ _) noted⟩
  · rw [source, List.append_nil]
    exact between.split
  · rw [Shows, window]
    exact between.shows
  · rw [world, List.append_nil]
    exact between.declared

theorem trans (first : Reports before nodes middle) (later : Reports middle others after) :
    Reports before (nodes ++ others) after := by
  intro passed coming between
  rcases first passed coming between with ⟨read, left, split, stands, judges⟩
  rcases later _ left stands with ⟨more, rest, splitLater, ends, judgesLater⟩
  have tokens : before.source.tokens = (passed ++ read) ++ (more ++ rest) := by
    rw [between.split, split, splitLater, List.append_assoc]
  rw [List.append_assoc] at ends
  refine ⟨read ++ more, rest, ?_, ends, judges.trans judgesLater tokens⟩
  rw [split, splitLater, List.append_assoc]

theorem advanced {reader : Reader} (notEnded : reader.sees .endOfInput = false) :
    Reports reader [] reader.advance := by
  intro passed coming between
  rcases between.advance notEnded with ⟨rest, split, stands⟩
  exact ⟨[reader.current], rest, split, stands, .of_no_nodes rfl rfl (.same _ _) rfl⟩

theorem reported (reader : Reader) (span : Span) {problem : Problem}
    (other : problem.concernsCall = false) :
    Reports reader [] (reader.report span problem) := by
  have unlike : ¬ (reader.source.diagnose span problem).concernsCall = true :=
    Bool.eq_false_iff.mp other
  refine .of_same rfl rfl rfl rfl ?_
  rw [report, List.filter_append, List.filter_cons_of_neg unlike, List.filter_nil, List.append_nil]

theorem node (reports : Reports before nodes after) {kind : Kind}
    (notCall : forall name : Span, kind ≠ .func name) (handle : Handle) :
    Reports before [.mk handle kind nodes] after := by
  intro passed coming between
  rcases reports passed coming between with ⟨read, rest, split, stands, judges⟩
  exact ⟨read, rest, split, stands, judges.node notCall handle⟩

/-- A name is read before what follows it. -/
theorem behind (reports : Reports before.advance nodes after)
    (named : before.sees .identifier = true) {passed coming : List Token}
    (between : before.Between passed coming) :
    Exists fun read : List Token => Exists fun rest : List Token =>
      coming = before.current :: read ++ rest ∧
        after.Between (passed ++ before.current :: read) rest ∧
        Judges before.advance after read nodes := by
  have notEnded := sees_eq_false_of_sees named (by decide : TokenKind.identifier ≠ .endOfInput)
  rcases between.advance notEnded with ⟨left, split, moved⟩
  rcases reports _ left moved with ⟨read, rest, splitLater, stands, judges⟩
  rw [List.append_assoc] at stands
  exact ⟨read, rest, by rw [split, splitLater]; rfl, stands, judges⟩

/-- A call is checked against the facts that are declared before its name. -/
theorem call (reports : Reports before.advance nodes after) (handle : Handle)
    (named : before.sees .identifier = true) (steps : Steps before.advance after) :
    Reports before [.mk handle (.func before.current.span) nodes]
      (after.checkCall before.current nodes.length) := by
  intro passed coming between
  rcases reports.behind named between with ⟨read, rest, split, stands, judges⟩
  have world : after.world = before.world := steps.unchanged.1
  have isName : before.current ∈ coming := split ▸ List.mem_cons_self
  have isToken : before.current ∈ before.source.tokens :=
    between.split ▸ List.mem_append_right _ isName
  have complaint := World.complaint?_of_call isToken (between.declaredBefore_eq isName) handle nodes
  have reported : ((after.callProblem? before.current nodes.length).map
        (after.source.diagnose before.current.span)).toList =
      if before.options.validateFacts then (before.world.complaint? before.source
        (.mk handle (.func before.current.span) nodes)).toList else [] := by
    have options : after.options.validateFacts = before.options.validateFacts :=
      congrArg Options.validateFacts judges.options
    rw [callProblem?_eq, options, world, judges.source, complaint]
    cases before.options.validateFacts with
    | false => rfl
    | true => rfl
  have noted := judges.noted
  rw [world] at noted
  have checks := filter_checkCall after before.current nodes.length
  rw [checkCall_noted]
  refine ⟨before.current :: read, rest, split, ⟨stands.split, stands.shows, stands.declared⟩,
    ⟨judges.source, judges.options, ?_, ?_, ?_⟩⟩
  · rw [world]
    exact .same _ _
  · intro inner member name isCall
    rw [Node.postorderAll_singleton] at member
    rcases List.mem_append.mp member with below | isNode
    · rcases judges.calls inner below name isCall with ⟨token, isRead, span⟩
      exact ⟨token, List.mem_cons_of_mem _ isRead, span⟩
    · rw [List.mem_singleton.mp isNode] at isCall
      exact ⟨before.current, List.mem_cons_self, Kind.func.inj isCall⟩
  · rw [List.filter_append, checks, noted, reported, List.append_assoc, world,
      World.complaints_node]
    rfl

/-- A declaration is made behind the name of its fact. -/
theorem declared (reports : Reports before.advance [] after) (params : List DataType)
    (named : before.sees .identifier = true) :
    Reports before [] (after.declare ⟨before.current.text, before.current.span, params⟩) := by
  let fact : Fact := ⟨before.current.text, before.current.span, params⟩
  cases found : after.world.find? fact.name with
  | some existing =>
      have notEnded := sees_eq_false_of_sees named (by decide : TokenKind.identifier ≠ .endOfInput)
      rw [declare_of_known found]
      exact ((advanced notEnded).trans reports).trans (reported after fact.span rfl)
  | none =>
      intro passed coming between
      rcases reports.behind named between with ⟨read, rest, split, stands, judges⟩
      have noted := judges.noted
      rw [World.complaints_nil, List.append_nil] at noted
      have isRead : before.current ∈ passed ++ before.current :: read :=
        List.mem_append_right _ List.mem_cons_self
      have gains : Gains after.world (after.world.add fact found) [before.current] :=
        ⟨[fact], rfl, List.forall_mem_singleton.mpr ⟨_, List.mem_cons_self, rfl⟩⟩
      rw [declare_of_new found]
      refine ⟨before.current :: read, rest, split, ⟨stands.split, stands.shows, ?_⟩,
        .of_no_nodes judges.source judges.options ?_ noted⟩
      · refine List.forall_mem_append.mpr ⟨stands.declared, List.forall_mem_singleton.mpr ?_⟩
        exact ⟨before.current, isRead, rfl⟩
      · rcases judges.gains.append gains with ⟨added, facts, declared⟩
        refine ⟨added, facts, fun one isAdded => ?_⟩
        rcases declared one isAdded with ⟨token, member, span⟩
        exact ⟨token, (List.perm_append_singleton _ _).mem_iff.mp member, span⟩

end Reports

/-- What the check of calls reports about all that is read. -/
def validation : Summary where
  holds := Reports
  nothing := fun _ => .of_same rfl rfl rfl rfl rfl
  trans := .trans
  advanced := .advanced
  reported := fun reader span _ wordless =>
    .reported reader span (Problem.concernsCall_of_wordless wordless)
  unknownType := fun named =>
    (Reports.advanced (sees_eq_false_of_sees named (by decide))).trans (.reported _ _ rfl)
  reserved := fun _ => .of_same rfl rfl rfl rfl rfl
  node := fun handle _ notCall reports => reports.node notCall handle
  call := fun handle named steps reports => reports.call handle named steps
  declared := fun params named _ reports => reports.declared params named

/-- The reports of the check can be told from what was read of a source. -/
theorem filter_concernsCall (source : Source) (options : Options) :
    (Domain.read source options).2.filter Diagnostic.concernsCall =
      (Domain.read source options).1.world.complaints source options.validateFacts
        (start source options).preconditions.1 := by
  rcases validation.preconditions (start source options) [] source.tokens
    (.start source options) with ⟨_, _, _, _, judges⟩
  exact judges.noted

/-! ## Reading without the check -/

/-- The diagnostics that the check of calls does not make. -/
def others (diagnostics : List Diagnostic) : List Diagnostic :=
  diagnostics.filter (fun diagnostic => !diagnostic.concernsCall)

theorem others_append (noted more : List Diagnostic) :
    others (noted ++ more) = others noted ++ others more :=
  List.filter_append _ _

theorem others_checkCall (reader : Reader) (name : Token) (found : Nat) :
    others (reader.checkCall name found).diagnostics = others reader.diagnostics := by
  have none : others ((reader.callProblem? name found).map
      (reader.source.diagnose name.span)).toList = [] := by
    rw [others, ← filter_checkCall, List.filter_filter]
    simp only [Bool.not_and_self, List.filter_false]
  rw [checkCall_noted, others_append, none, List.append_nil]

/-- Two readers that may differ in whether they check calls, and in what such a
check has reported. -/
structure Apart (reader other : Reader) : Prop where
  source : reader.source = other.source
  window : reader.window = other.window
  forest : reader.forest = other.forest
  world : reader.world = other.world
  noted : others reader.diagnostics = others other.diagnostics

namespace Apart

variable {reader other : Reader}

theorem reported (apart : reader.Apart other) (span : Span) (problem : Problem) :
    (reader.report span problem).Apart (other.report span problem) :=
  { apart with
    noted := by rw [report, report, others_append, others_append, apart.noted, apart.source] }

theorem checked (apart : reader.Apart other) (name : Token) (found : Nat) :
    (reader.checkCall name found).Apart (other.checkCall name found) := by
  have noted : others (reader.checkCall name found).diagnostics =
      others (other.checkCall name found).diagnostics := by
    rw [others_checkCall, others_checkCall, apart.noted]
  rw [checkCall_noted, checkCall_noted] at noted ⊢
  exact { apart with noted := noted }

theorem declared (apart : reader.Apart other) (fact : Fact) :
    (reader.declare fact).Apart (other.declare fact) := by
  simp only [declare, apart.world]
  split
  case h_1 => exact { apart with world := rfl }
  case h_2 => exact apart.reported _ _

theorem advanced (apart : reader.Apart other) : reader.advance.Apart other.advance :=
  { apart with window := congrArg Window.advance apart.window }

def agreement : Agreement where
  relates := fun _ => Apart
  window_eq := window
  nextHandle_eq := fun apart => congrArg Forest.allocated apart.forest
  opened := fun apart _ => apart.advanced
  closed := fun apart _ => apart.advanced
  advanced := fun apart _ _ => apart.advanced
  ended := fun apart _ => apart
  reported := fun span problem apart => apart.reported span problem
  reserved := fun apart => { apart with forest := congrArg Forest.reserve apart.forest }
  checked := fun name found apart => apart.checked name found

/-- The same is read with and without the check of calls. -/
def correspondence : SourceCorrespondence where
  toCorrespondence := agreement.correspondence
  anywhere := fun _ apart => apart
  text_eq := fun same _ => congrArg Token.text same
  declared := fun _ apart same _ => same ▸ apart.declared _

end Apart

end Reader

namespace Domain

open Reader

/-- The check of calls changes nothing but the diagnostics.  Without it, those
that concern calls are missing.  With it, there is one of these for each call that
stands behind some declaration and disagrees with the facts declared before it, in
the order in which the calls come to their ends. -/
theorem read_validation (source : Source) (lookAhead : Nat) :
    (Domain.read source ⟨lookAhead, false⟩).1 = (Domain.read source ⟨lookAhead, true⟩).1 ∧
      (Domain.read source ⟨lookAhead, false⟩).2 =
        others (Domain.read source ⟨lookAhead, true⟩).2 ∧
      Exists fun trees : List Node =>
        List.Forall₂ (Domain.read source ⟨lookAhead, true⟩).1.arena.Reads
            (Domain.read source ⟨lookAhead, true⟩).1.preconditions trees ∧
          (Domain.read source ⟨lookAhead, true⟩).2.filter Diagnostic.concernsCall =
            (Node.postorderAll trees).filterMap
              ((Domain.read source ⟨lookAhead, true⟩).1.world.complaint? source) := by
  let c := Apart.correspondence
  have atStart : c.relates 0 (start source ⟨lookAhead, false⟩) (start source ⟨lookAhead, true⟩) :=
    ⟨rfl, rfl, rfl, rfl, rfl⟩
  have trees := c.preconditions_eq id id atStart
  have ends : Apart _ _ := (c.preconditions _ atStart).1
  refine ⟨?_, ?_, (start source ⟨lookAhead, true⟩).preconditions.1, ?_, ?_⟩
  · rw [read, read, finish, finish, trees, ends.source, ends.forest, ends.world]
  · have kept : others (Domain.read source ⟨lookAhead, false⟩).2 =
        (Domain.read source ⟨lookAhead, false⟩).2 := by
      have none := filter_concernsCall source ⟨lookAhead, false⟩
      refine List.filter_eq_self.mpr (fun diagnostic member => ?_)
      rw [Bool.eq_false_iff.mpr (List.filter_eq_nil_iff.mp none diagnostic member)]
      rfl
    rw [← kept]
    exact ends.noted
  · exact Machine.reads_read source ⟨lookAhead, true⟩
  · exact filter_concernsCall source ⟨lookAhead, true⟩

end Domain

end PlanningDomain
