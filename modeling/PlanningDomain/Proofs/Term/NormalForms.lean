import Mathlib.Logic.Basic
import PlanningDomain.Proofs.Term.Basic

namespace PlanningDomain

/-!
# Normal forms of terms

The term of what a conversion of an expression computes is what the recursion
on terms computes from the term of the expression.  So the forms that
the results have can be shown for terms alone.  A term is flat after merging,
and a flat term does not change.  If every negation has exactly one operand,
the same holds of the negation normal form, and all its negations are
literals.
-/

theorem Kind.absorbs_iff (outer inner : Kind) :
    outer.absorbs inner = true ↔ outer.isAssociative = true ∧ inner = outer := by
  cases outer with
  | connective symbol =>
      cases inner with
      | connective other =>
          rw [absorbs, beq_iff_eq]
          constructor
          · intro same
            exact ⟨rfl, congrArg connective same.symm⟩
          · intro parts
            exact (connective.inj parts.2).symm
      | _ => simp [absorbs]
  | _ => simp [absorbs, isAssociative]

theorem Kind.exists_connective {kind : Kind} (associative : kind.isAssociative = true) :
    Exists fun symbol : Connective => kind = .connective symbol := by
  cases kind with
  | connective symbol => exact ⟨symbol, rfl⟩
  | _ => exact Bool.noConfusion associative

/-- Only a logical kind takes over operands, and only those of its own kind. -/
theorem Kind.isLogical_of_absorbs {outer kind : Kind} (absorbed : outer.absorbs kind = true) :
    outer.isLogical = true ∧ kind.isLogical = true := by
  rcases (absorbs_iff outer kind).mp absorbed with ⟨associative, same⟩
  rcases exists_connective associative with ⟨symbol, isConnective⟩
  subst same isConnective
  exact ⟨rfl, rfl⟩

theorem Kind.ne_not_of_not_logical {kind : Kind} (notLogical : kind.isLogical = false) :
    kind ≠ .not := by
  intro same
  rw [same] at notLogical
  exact Bool.noConfusion notLogical

theorem Kind.absorbs_of_not_logical {kind : Kind} (notLogical : kind.isLogical = false)
    (outer : Kind) : outer.absorbs kind = false := by
  cases absorbed : outer.absorbs kind with
  | false => rfl
  | true => rw [← notLogical, (isLogical_of_absorbs absorbed).2]

/-- Combining and renaming can be exchanged. -/
theorem map_combinations {alpha beta : Type} (rename : alpha -> beta)
    (families : List (List (List alpha))) :
    (combinations families).map (fun choice => choice.map rename) =
      combinations (families.map (fun family => family.map (fun choice => choice.map rename))) := by
  induction families with
  | nil => rfl
  | cons family families ih =>
      rw [combinations, List.map_cons, combinations, ← ih, List.map_flatMap, List.flatMap_map]
      congr 1
      funext choice
      rw [List.map_map, List.map_map]
      congr 1
      funext joined
      exact List.map_append

/-- A combination consists of members of the lists that are combined. -/
theorem mem_of_mem_combinations {alpha : Type} {families : List (List (List alpha))} :
    forall choice, choice ∈ combinations families -> forall entry, entry ∈ choice ->
      entry ∈ families.flatMap List.flatten := by
  induction families with
  | nil =>
      intro choice listed entry member
      rw [List.mem_singleton.mp listed] at member
      exact (List.not_mem_nil member).elim
  | cons family families ih =>
      intro choice listed entry member
      rcases List.mem_flatMap.mp listed with ⟨head, isHead, joined⟩
      rcases List.mem_map.mp joined with ⟨tail, isTail, split⟩
      subst split
      rw [List.flatMap_cons]
      rcases List.mem_append.mp member with first | later
      · exact List.mem_append_left _ (List.mem_flatten.mpr ⟨head, isHead, first⟩)
      · exact List.mem_append_right _ (ih tail isTail entry later)

namespace Term

theorem isFlat_mk {kind : Kind} {children : List Term} :
    (mk kind children).isFlat = true ↔
      (mk kind children).isMerged = true ∧ forall child, child ∈ children -> child.isFlat = true :=
  all_subterms_mk _ _ _

theorem isMerged_iff {kind : Kind} {children : List Term} :
    (mk kind children).isMerged = true ↔
      forall child, child ∈ children -> ¬ kind.absorbs child.kind = true := by
  rw [isMerged, kind_mk, children_mk, Bool.or_eq_true, Bool.not_eq_true', List.all_eq_true]
  constructor
  · intro merged child isChild absorbed
    rcases (Kind.absorbs_iff _ _).mp absorbed with ⟨associative, same⟩
    rcases merged with notAssociative | different
    · rw [associative] at notAssociative
      exact Bool.noConfusion notAssociative
    · exact bne_iff_ne.mp (different child isChild) same
  · intro kept
    by_cases associative : kind.isAssociative = true
    · refine Or.inr (fun child isChild => bne_iff_ne.mpr (fun same => ?_))
      exact kept child isChild ((Kind.absorbs_iff _ _).mpr ⟨associative, same⟩)
    · exact Or.inl (Bool.eq_false_iff.mpr associative)

theorem kind_flat (term : Term) : term.flat.kind = term.kind := by
  cases term
  rfl

/-! ## Flat terms -/

theorem isFlat_flat_both :
    (forall term : Term, term.flat.isFlat = true) ∧
      forall (terms : List Term) (outer : Kind), forall child, child ∈ flatAll outer terms ->
        child.isFlat = true ∧ ¬ outer.absorbs child.kind = true := by
  refine induction_both ?_ ?_ ?_
  · intro kind children ih
    exact isFlat_mk.mpr ⟨isMerged_iff.mpr (fun child isChild => (ih kind child isChild).2),
      fun child isChild => (ih kind child isChild).1⟩
  · exact fun _ _ impossible => (List.not_mem_nil impossible).elim
  · intro term rest head tail outer child member
    rw [flatAll] at member
    rcases List.mem_append.mp member with first | later
    · by_cases absorbed : outer.absorbs term.kind = true
      · rw [if_pos absorbed] at first
        rcases term with ⟨kind, children⟩
        rcases isFlat_mk.mp head with ⟨merged, flats⟩
        rcases (Kind.absorbs_iff _ _).mp absorbed with ⟨_, same⟩
        refine ⟨flats child first, ?_⟩
        rw [← same]
        exact isMerged_iff.mp merged child first
      · rw [if_neg absorbed] at first
        rw [List.mem_singleton.mp first, kind_flat]
        exact ⟨head, absorbed⟩
    · exact tail outer child later

/-- Merging gives a flat term. -/
theorem isFlat_flat (term : Term) : term.flat.isFlat = true :=
  isFlat_flat_both.1 term

end Term

namespace Node

/-- A flat expression does not change, and nothing is left over. -/
theorem flatten_of_isFlat :
    (forall node : Node, node.isFlat = true -> node.flatten = node ∧ node.shells = []) ∧
      forall (nodes : List Node) (outer : Kind),
        (forall child, child ∈ nodes ->
          child.isFlat = true ∧ ¬ outer.absorbs child.kind = true) ->
        mergeAll outer nodes = nodes ∧ shellsAll outer nodes = [] := by
  refine induction_both ?_ (fun _ _ => ⟨rfl, rfl⟩) ?_
  · intro handle kind children ih flat
    rw [isFlat_eq, term_mk] at flat
    rcases Term.isFlat_mk.mp flat with ⟨merged, flats⟩
    have kept := Term.isMerged_iff.mp merged
    obtain ⟨same, none⟩ := ih kind (fun child isChild => by
      have listed := List.mem_map_of_mem (f := term) isChild
      rw [isFlat_eq, ← kind_term]
      exact ⟨flats _ listed, kept _ listed⟩)
    rw [flatten, same, shells, none]
    exact ⟨rfl, rfl⟩
  · intro node rest head tail outer each
    rcases each node List.mem_cons_self with ⟨flat, kept⟩
    rcases tail outer (fun child isChild => each child (List.mem_cons_of_mem _ isChild)) with
      ⟨same, none⟩
    rcases node with ⟨handle, kind, children⟩
    rcases head flat with ⟨sameHere, noneHere⟩
    rw [flatten] at sameHere
    rw [shells] at noneHere
    rw [kind_mk] at kept
    rw [mergeAll, mergeInto, if_neg kept, sameHere, same, shellsAll, shellsInto, if_neg kept,
      noneHere, none]
    exact ⟨rfl, rfl⟩

/-! ## The terms of conversions -/

theorem term_flatten_both :
    (forall node : Node, node.flatten.term = node.term.flat) ∧
      forall (nodes : List Node) (outer : Kind),
        (mergeAll outer nodes).map term = Term.flatAll outer (nodes.map term) := by
  refine induction_both ?_ (fun _ => rfl) ?_
  · intro handle kind children ih
    rw [flatten, term_mk, ih, term_mk, Term.flat]
  · intro node rest head tail outer
    rcases node with ⟨handle, kind, children⟩
    rw [mergeAll, List.map_append, tail, List.map_cons, Term.flatAll, ← head, kind_term, kind_mk,
      mergeInto]
    by_cases absorbed : outer.absorbs kind = true
    · rw [if_pos absorbed, if_pos absorbed, flatten, children_term, children_mk]
    · rw [if_neg absorbed, if_neg absorbed, flatten, List.map_singleton]

/-- Merging in an expression is merging in its term. -/
theorem term_flatten (node : Node) : node.flatten.term = node.term.flat :=
  term_flatten_both.1 node

theorem term_nnfAll {nodes : List Node}
    (each : forall node, node ∈ nodes -> forall forest : Forest,
      (node.nnf forest).1.term = node.term.nnf) :
    forall forest : Forest, (nnfAll forest nodes).1.map term = Term.nnfAll (nodes.map term) := by
  induction nodes with
  | nil => exact fun _ => rfl
  | cons node rest ih =>
      intro forest
      rw [nnfAll, List.map_cons, List.map_cons, Term.nnfAll, each node List.mem_cons_self,
        ih (fun other member => each other (List.mem_cons_of_mem _ member))]

theorem term_nnfNotAll {nodes : List Node}
    (each : forall node, node ∈ nodes ->
      forall (forest : Forest) (negation : Handle) (others : List Node),
        (node.nnfNot forest negation others).1.term = node.term.nnfNot (others.map term)) :
    forall forest : Forest,
      (nnfNotAll forest nodes).1.map term = Term.nnfNotAll (nodes.map term) := by
  induction nodes with
  | nil => exact fun _ => rfl
  | cons node rest ih =>
      intro forest
      rw [nnfNotAll, List.map_cons, List.map_cons, Term.nnfNotAll, each node List.mem_cons_self,
        ih (fun other member => each other (List.mem_cons_of_mem _ member)), List.map_nil]

theorem term_nnf_both (node : Node) :
    (forall forest : Forest, (node.nnf forest).1.term = node.term.nnf) ∧
      forall (forest : Forest) (negation : Handle) (others : List Node),
        (node.nnfNot forest negation others).1.term = node.term.nnfNot (others.map term) := by
  induction node using Node.induction with
  | step handle kind children ih =>
      have plain := term_nnfAll (fun child member => (ih child member).1)
      have negated := term_nnfNotAll (fun child member => (ih child member).2)
      constructor
      · intro forest
        by_cases negation : kind = .not
        · subst negation
          cases children with
          | nil => rfl
          | cons operand others =>
              rw [nnf, (ih operand List.mem_cons_self).2, term_mk, List.map_cons, Term.nnf]
        · rw [term_mk, Term.nnf_of_ne_not negation, nnf_of_ne_not negation, term_mk, plain]
      · intro forest negation others
        by_cases notLogical : kind.isLogical = false
        · rw [nnfNot_of_not_logical notLogical, term_mk, term_mk,
            Term.nnfNot_of_not_logical notLogical, List.map_cons, term_mk, plain]
        · cases kind with
          | not =>
              cases children with
              | nil => rw [nnfNot, term_mk, List.map_cons]; rfl
              | cons inner more =>
                  rw [nnfNot, (ih inner List.mem_cons_self).1, term_mk, List.map_cons, Term.nnfNot]
          | connective symbol => rw [nnfNot, term_mk, term_mk, Term.nnfNot, negated]
          | _ => exact (notLogical rfl).elim

/-- The negation normal form of an expression has the negation normal form of
its term. -/
theorem term_nnf (node : Node) (forest : Forest) : (node.nnf forest).1.term = node.term.nnf :=
  (term_nnf_both node).1 forest

theorem term_toNnf (node : Node) (forest : Forest) :
    (node.toNnf forest).1.term = node.term.nnf.flat := by
  rw [← node.term_nnf forest, ← term_flatten]
  rfl

end Node

/-! ## Clauses -/

namespace Placement

/-- A literal in its place has the term that it was placed for. -/
theorem map_term_literals (literals : List Node) :
    forall (taken : List Handle) (forest : Forest),
      (Placement.literals taken forest literals).placed.map Node.term = literals.map Node.term := by
  induction literals with
  | nil => exact fun _ _ => rfl
  | cons literal rest ih =>
      intro taken forest
      rw [Placement.literals]
      split
      · rw [List.map_cons, List.map_cons, Node.term_copy.1, ih]
      · rw [List.map_cons, List.map_cons, ih]

theorem map_term_clauses (choices : List (List Node)) :
    forall (taken : List Handle) (forest : Forest),
      (Placement.clauses taken forest choices).placed.map
          (fun clause => clause.literals.map Node.term) =
        choices.map (fun choice => choice.map Node.term) := by
  induction choices with
  | nil => exact fun _ _ => rfl
  | cons choice rest ih =>
      intro taken forest
      rw [Placement.clauses, List.map_cons, List.map_cons, ih, map_term_literals]

end Placement

namespace Disjunction

/-- The terms of the literals of each clause. -/
def terms (disjunction : Disjunction) : List (List Term) :=
  disjunction.clauses.map (fun clause => clause.literals.map Node.term)

theorem terms_eq (disjunction : Disjunction) :
    disjunction.terms = disjunction.literals.map (fun clause => clause.map Node.term) := by
  rw [terms, literals, List.map_map]
  rfl

theorem term_toNode (disjunction : Disjunction) :
    disjunction.toNode.term = Term.ofClauses disjunction.terms := by
  rw [toNode, Node.term_mk, Term.ofClauses, terms, List.map_map, List.map_map]
  congr 2
  funext clause
  exact Node.term_mk _ _ _

end Disjunction

namespace Node

theorem terms_disjoinAll {nodes : List Node}
    (each : forall node, node ∈ nodes -> forall forest : Forest,
      (node.disjoin forest).1.terms = node.term.clauses) :
    forall forest : Forest,
      (disjoinAll forest nodes).1.map Disjunction.terms = Term.clausesAll (nodes.map term) := by
  induction nodes with
  | nil => exact fun _ => rfl
  | cons node rest ih =>
      intro forest
      rw [disjoinAll, List.map_cons, List.map_cons, Term.clausesAll, each node List.mem_cons_self,
        ih (fun other member => each other (List.mem_cons_of_mem _ member))]

/-- The clauses of an expression are the clauses of its term. -/
theorem terms_disjoin (node : Node) :
    forall forest : Forest, (node.disjoin forest).1.terms = node.term.clauses := by
  induction node using Node.induction with
  | step handle kind children ih =>
      intro forest
      have all := terms_disjoinAll ih
      by_cases connective : Exists fun symbol : Connective => kind = .connective symbol
      · rcases connective with ⟨symbol, same⟩
        subst same
        rw [term_mk]
        cases symbol with
        | or =>
            rw [Term.clauses, ← all forest.reserve, disjoin, Disjunction.join, Disjunction.terms,
              List.map_flatMap, List.flatMap_def]
            rfl
        | and =>
            have product : ((mk handle .and children).disjoin forest).1.terms =
                (combinations ((disjoinAll forest children).1.map Disjunction.literals)).map
                  (fun choice => choice.map term) :=
              Placement.map_term_clauses _ _ _
            rw [product, map_combinations, List.map_map, Term.clauses, ← all forest]
            congr 2
            funext operand
            exact operand.terms_eq.symm
      · have literal : forall symbol, (mk handle kind children).kind ≠ .connective symbol :=
          fun symbol same => connective ⟨symbol, same⟩
        rw [disjoin_of_literal literal, Term.clauses_of_literal (by rw [kind_term]; exact literal)]
        rfl

/-- The disjunction of the clauses of an expression has the disjunctive normal
form of its term. -/
theorem term_clausesOf (node : Node) (forest : Forest) :
    (node.clausesOf forest).1.term = node.term.dnf := by
  by_cases childless : node.kind = .and ∧ node.children = []
  · rcases node with ⟨handle, kind, children⟩
    rcases childless with ⟨conjunction, none⟩
    rw [kind_mk] at conjunction
    rw [children_mk] at none
    subst conjunction none
    rfl
  · rw [clausesOf_of_not_childless childless, Disjunction.term_toNode, terms_disjoin,
      Term.dnf_of_not_childless]
    intro same
    rcases node with ⟨handle, kind, children⟩
    rw [term_mk] at same
    rcases Term.mk.inj same with ⟨conjunction, none⟩
    exact childless ⟨conjunction, List.map_eq_nil_iff.mp none⟩

theorem term_toDnf (attached : Bool) (node : Node) (forest : Forest) :
    (node.toDnf attached forest).1.term = node.term.nnf.flat.dnf := by
  rw [toDnf, ← node.term_toNnf forest]
  split
  · exact term_clausesOf _ _
  · exact term_clausesOf _ _

end Node

/-! ## The forms of results -/

namespace Term

/-- Every literal of a clause is got to through connectives, and is none. -/
theorem forall_mem_clauses {good : Term -> Prop}
    (down : forall symbol children, good (mk (.connective symbol) children) ->
      forall child, child ∈ children -> good child) :
    (forall term : Term, good term ->
        forall clause, clause ∈ term.clauses -> forall literal, literal ∈ clause ->
          good literal ∧ forall symbol, literal.kind ≠ .connective symbol) ∧
      forall terms : List Term, (forall term, term ∈ terms -> good term) ->
        forall family, family ∈ clausesAll terms ->
          forall clause, clause ∈ family -> forall literal, literal ∈ clause ->
            good literal ∧ forall symbol, literal.kind ≠ .connective symbol := by
  refine induction_both ?_ (fun _ _ impossible => (List.not_mem_nil impossible).elim) ?_
  · intro kind children ih here clause listed literal member
    by_cases connective : Exists fun symbol : Connective => kind = .connective symbol
    · rcases connective with ⟨symbol, same⟩
      subst same
      have found : Exists fun family : List (List Term) => family ∈ clausesAll children ∧
          Exists fun part : List Term => part ∈ family ∧ literal ∈ part := by
        cases symbol with
        | or =>
            rw [clauses] at listed
            rcases List.mem_flatten.mp listed with ⟨family, isFamily, within⟩
            exact ⟨family, isFamily, clause, within, member⟩
        | and =>
            rw [clauses] at listed
            have entry := mem_of_mem_combinations clause listed literal member
            rcases List.mem_flatMap.mp entry with ⟨family, isFamily, within⟩
            rcases List.mem_flatten.mp within with ⟨part, isPart, inPart⟩
            exact ⟨family, isFamily, part, isPart, inPart⟩
      rcases found with ⟨family, isFamily, part, isPart, inPart⟩
      exact ih (down symbol children here) family isFamily part isPart literal inPart
    · have notConnective : forall symbol, (mk kind children).kind ≠ .connective symbol :=
        fun symbol same => connective ⟨symbol, same⟩
      rw [clauses_of_literal notConnective] at listed
      rw [List.mem_singleton.mp listed] at member
      rw [List.mem_singleton.mp member]
      exact ⟨here, notConnective⟩
  · intro term rest head tail each family isFamily
    rcases List.mem_cons.mp isFamily with first | later
    · subst first
      exact head (each term List.mem_cons_self)
    · exact tail (fun other member => each other (List.mem_cons_of_mem _ member)) family later

/-- The subterms of a subterm are subterms. -/
theorem mem_subterms_trans {deep inner : Term} (within : deep ∈ inner.subterms) (term : Term) :
    inner ∈ term.subterms -> deep ∈ term.subterms := by
  induction term using induction with
  | step kind children ih =>
      intro member
      rw [subterms, subtermsAll_eq_flatMap] at member ⊢
      rcases List.mem_cons.mp member with same | below
      · rw [same, subterms, subtermsAll_eq_flatMap] at within
        exact within
      · rcases List.mem_flatMap.mp below with ⟨child, isChild, inside⟩
        exact List.mem_cons_of_mem _
          (List.mem_flatMap.mpr ⟨child, isChild, ih child isChild inside⟩)

theorem mem_subterms_self (term : Term) : term ∈ term.subterms := by
  cases term
  exact List.mem_cons_self

/-- Every literal of a clause is a subterm, and no connective. -/
theorem mem_clauses {term literal : Term} {clause : List Term} (listed : clause ∈ term.clauses)
    (member : literal ∈ clause) :
    literal ∈ term.subterms ∧ forall symbol, literal.kind ≠ .connective symbol := by
  refine (forall_mem_clauses (fun symbol children within child isChild => ?_)).1
    term term.mem_subterms_self clause listed literal member
  refine mem_subterms_trans ?_ term within
  rw [subterms, subtermsAll_eq_flatMap]
  exact List.mem_cons_of_mem _ (List.mem_flatMap.mpr ⟨child, isChild, child.mem_subterms_self⟩)

/-- What holds of all subterms of a term holds of all subterms of one of
them. -/
theorem all_of_mem_subterms {test : Term -> Bool} (term : Term)
    (all : term.subterms.all test = true) :
    forall inner, inner ∈ term.subterms -> inner.subterms.all test = true := by
  intro inner member
  exact List.all_eq_true.mpr
    (fun deep within => List.all_eq_true.mp all deep (mem_subterms_trans within term member))

theorem isUnary_mk {kind : Kind} {children : List Term} :
    (mk kind children).isUnary = true ↔
      (kind = .not -> children.length = 1) ∧
        forall child, child ∈ children -> child.isUnary = true := by
  refine (all_subterms_mk _ _ _).trans (and_congr ?_ Iff.rfl)
  rw [kind_mk, children_mk, Bool.or_eq_true, bne_iff_ne, beq_iff_eq, or_iff_not_imp_left, not_not]

theorem isNnf_mk {kind : Kind} {children : List Term} :
    (mk kind children).isNnf = true ↔
      (kind = .not -> (mk kind children).isLiteral = true) ∧
        forall child, child ∈ children -> child.isNnf = true := by
  refine (all_subterms_mk _ _ _).trans (and_congr ?_ Iff.rfl)
  rw [kind_mk, Bool.or_eq_true, bne_iff_ne, or_iff_not_imp_left, not_not]

/-- If every negation has one operand, the same holds of the negation normal
form, and its negations are literals. -/
theorem nnf_forms (term : Term) (unary : term.isUnary = true) :
    (term.nnf.isUnary = true ∧ term.nnf.isNnf = true) ∧
      (term.nnfNot []).isUnary = true ∧ (term.nnfNot []).isNnf = true := by
  induction term using induction with
  | step kind children ih =>
      rcases isUnary_mk.mp unary with ⟨single, below⟩
      have plain := fun child isChild => (ih child isChild (below child isChild)).1
      have negated := fun child isChild => (ih child isChild (below child isChild)).2
      by_cases negation : kind = .not
      · subst negation
        rcases List.length_eq_one_iff.mp (single rfl) with ⟨operand, only⟩
        subst only
        rw [nnf, nnfNot]
        exact ⟨negated operand List.mem_cons_self, plain operand List.mem_cons_self⟩
      · have kept : (mk kind (nnfAll children)).isUnary = true ∧
            (mk kind (nnfAll children)).isNnf = true := by
          rw [nnfAll_eq_map, isUnary_mk, isNnf_mk]
          refine ⟨⟨fun impossible => (negation impossible).elim, ?_⟩,
            fun impossible => (negation impossible).elim, ?_⟩
          · exact List.forall_mem_map.mpr (fun child isChild => (plain child isChild).1)
          · exact List.forall_mem_map.mpr (fun child isChild => (plain child isChild).2)
        rw [nnf_of_ne_not negation]
        refine ⟨kept, ?_⟩
        by_cases notLogical : kind.isLogical = false
        · rw [nnfNot_of_not_logical notLogical, isUnary_mk, isNnf_mk]
          refine ⟨⟨fun _ => rfl, ?_⟩, ?_, ?_⟩
          · exact List.forall_mem_singleton.mpr kept.1
          · intro _
            change (!kind.isLogical) = true
            rw [notLogical]
            rfl
          · exact List.forall_mem_singleton.mpr kept.2
        · cases kind with
          | not => exact (negation rfl).elim
          | connective symbol =>
              rw [nnfNot, nnfNotAll_eq_map, isUnary_mk, isNnf_mk]
              refine ⟨⟨fun impossible => Kind.noConfusion impossible, ?_⟩,
                fun impossible => Kind.noConfusion impossible, ?_⟩
              · exact List.forall_mem_map.mpr (fun child isChild => (negated child isChild).1)
              · exact List.forall_mem_map.mpr (fun child isChild => (negated child isChild).2)
          | _ => exact (notLogical rfl).elim

theorem flatAll_of_not_associative {outer : Kind} (notAssociative : outer.isAssociative = false)
    (terms : List Term) : flatAll outer terms = terms.map flat := by
  induction terms with
  | nil => rfl
  | cons term rest ih =>
      have kept : ¬ outer.absorbs term.kind = true := by
        intro absorbed
        rw [((Kind.absorbs_iff _ _).mp absorbed).1] at notAssociative
        exact Bool.noConfusion notAssociative
      rw [flatAll, if_neg kept, ih, List.map_cons, List.singleton_append]

/-- What holds of the merged operands of a node, given what holds of each
merged operand.  Only a connective is merged away. -/
theorem forall_mem_flatAll {good : Term -> Prop}
    (down : forall symbol children, good (mk (.connective symbol) children) ->
      forall child, child ∈ children -> good child)
    (outer : Kind) (terms : List Term) (each : forall term, term ∈ terms -> good term.flat) :
    forall child, child ∈ flatAll outer terms -> good child := by
  induction terms with
  | nil => exact fun _ impossible => (List.not_mem_nil impossible).elim
  | cons term rest ih =>
      intro child member
      rw [flatAll] at member
      rcases List.mem_append.mp member with first | later
      · have here := each term List.mem_cons_self
        by_cases absorbed : outer.absorbs term.kind = true
        · rw [if_pos absorbed] at first
          rcases term with ⟨kind, children⟩
          rcases (Kind.absorbs_iff _ _).mp absorbed with ⟨associative, same⟩
          cases kind with
          | connective symbol => exact down symbol _ here child first
          | _ =>
              rw [← same] at associative
              exact Bool.noConfusion associative
        · rw [if_neg absorbed] at first
          exact List.mem_singleton.mp first ▸ here
      · exact ih (fun other isOther => each other (List.mem_cons_of_mem _ isOther)) child later

theorem isNnf_flat (term : Term) (nnf : term.isNnf = true) : term.flat.isNnf = true := by
  induction term using induction with
  | step kind children ih =>
      rcases isNnf_mk.mp nnf with ⟨literal, below⟩
      rw [flat, isNnf_mk]
      refine ⟨fun negation => ?_, ?_⟩
      · subst negation
        rw [flatAll_of_not_associative rfl]
        cases children with
        | nil => rfl
        | cons operand others =>
            change (!operand.flat.kind.isLogical) = true
            rw [kind_flat]
            exact literal rfl
      · exact forall_mem_flatAll (fun _ _ good => (isNnf_mk.mp good).2) kind children
          (fun child isChild => ih child isChild (below child isChild))

/-! ## Disjunctions of clauses -/

/-- A disjunction of conjunctions of literals. -/
def isDnf (term : Term) : Bool :=
  term.kind == .or &&
    term.children.all (fun clause => clause.kind == .and && clause.children.all isLiteral)

theorem isLiteral_of_isNnf {term : Term} (nnf : term.isNnf = true)
    (notConnective : forall symbol, term.kind ≠ .connective symbol) : term.isLiteral = true := by
  rcases term with ⟨kind, children⟩
  cases kind with
  | connective symbol => exact (notConnective symbol rfl).elim
  | not => exact (isNnf_mk.mp nnf).1 rfl
  | _ => rfl

/-- Every clause of a disjunction of clauses is a conjunction of literals. -/
theorem isDnf_ofClauses {clauses : List (List Term)}
    (literals : forall clause, clause ∈ clauses -> forall literal, literal ∈ clause ->
      literal.isLiteral = true) : (ofClauses clauses).isDnf = true := by
  rw [isDnf, Bool.and_eq_true]
  refine ⟨rfl, ?_⟩
  change (clauses.map (mk .and)).all _ = true
  refine List.all_eq_true.mpr (List.forall_mem_map.mpr (fun clause listed => ?_))
  rw [Bool.and_eq_true]
  exact ⟨rfl, List.all_eq_true.mpr (literals clause listed)⟩

theorem isFlat_ofClauses {clauses : List (List Term)}
    (literals : forall clause, clause ∈ clauses -> forall literal, literal ∈ clause ->
      literal.isFlat = true ∧ forall symbol, literal.kind ≠ .connective symbol) :
    (ofClauses clauses).isFlat = true := by
  rw [ofClauses, isFlat_mk, isMerged_iff]
  refine ⟨List.forall_mem_map.mpr (fun clause listed => Bool.false_ne_true),
    List.forall_mem_map.mpr (fun clause listed => ?_)⟩
  rw [isFlat_mk, isMerged_iff]
  refine ⟨fun literal member absorbed => ?_, fun literal member => ?_⟩
  · exact (literals clause listed literal member).2 .and ((Kind.absorbs_iff _ _).mp absorbed).2
  · exact (literals clause listed literal member).1

theorem isFlat_dnf {term : Term} (flat : term.isFlat = true) : term.dnf.isFlat = true := by
  by_cases childless : term = .mk .and []
  · subst childless
    rfl
  · rw [dnf_of_not_childless childless]
    refine isFlat_ofClauses (fun clause listed literal member => ?_)
    rcases mem_clauses listed member with ⟨below, notConnective⟩
    exact ⟨all_of_mem_subterms term flat literal below, notConnective⟩

theorem isNnf_ofClauses {clauses : List (List Term)}
    (literals : forall clause, clause ∈ clauses -> forall literal, literal ∈ clause ->
      literal.isNnf = true) : (ofClauses clauses).isNnf = true := by
  rw [ofClauses, isNnf_mk]
  refine ⟨fun impossible => Kind.noConfusion impossible,
    List.forall_mem_map.mpr (fun clause listed => ?_)⟩
  rw [isNnf_mk]
  exact ⟨fun impossible => Kind.noConfusion impossible, literals clause listed⟩

/-- The disjunctive normal form of a term in negation normal form. -/
theorem dnf_forms {term : Term} (nnf : term.isNnf = true) :
    term.dnf.isDnf = true ∧ term.dnf.isNnf = true := by
  by_cases childless : term = .mk .and []
  · subst childless
    exact ⟨rfl, rfl⟩
  · rw [dnf_of_not_childless childless]
    have inner : forall clause, clause ∈ term.clauses -> forall literal, literal ∈ clause ->
        literal.isNnf = true ∧ forall symbol, literal.kind ≠ .connective symbol := by
      intro clause listed literal member
      rcases mem_clauses listed member with ⟨below, notConnective⟩
      exact ⟨all_of_mem_subterms term nnf literal below, notConnective⟩
    refine ⟨isDnf_ofClauses (fun clause listed literal member => ?_),
      isNnf_ofClauses (fun clause listed literal member => ?_)⟩
    · rcases inner clause listed literal member with ⟨form, notConnective⟩
      exact isLiteral_of_isNnf form notConnective
    · exact (inner clause listed literal member).1

end Term

namespace Node

/-- The disjunctive normal form of an expression is flat already. -/
theorem isFlat_clausesOf (node : Node) (forest : Forest) (flat : node.isFlat = true) :
    (node.clausesOf forest).1.isFlat = true := by
  rw [isFlat_eq, term_clausesOf]
  rw [isFlat_eq] at flat
  exact Term.isFlat_dnf flat

theorem isFlat_toNnf (node : Node) (forest : Forest) : (node.toNnf forest).1.isFlat = true := by
  rw [isFlat_eq, term_toNnf]
  exact Term.isFlat_flat _

theorem isDnf_eq (node : Node) : node.isDnf = node.term.isDnf := by
  unfold isDnf Term.isDnf
  rw [kind_term, children_term, List.all_map]
  congr 2
  funext clause
  rw [Function.comp_apply, kind_term, children_term, List.all_map]
  congr 2
  funext literal
  exact literal.isLiteral_eq

end Node

end PlanningDomain
