import PlanningDomain.NormalForm.Disjunction
import PlanningDomain.Proofs.Nodes

namespace PlanningDomain

/-!
# Terms

A term is an expression without handles.  What the conversions compute, apart
from which node is which, is said here by recursions on terms as a textbook
gives them.  They know nothing of forests, of copies, or of what a
conversion leaves over.
-/

/-- The shape of an expression, with the kinds of its nodes. -/
inductive Term where
  | mk (kind : Kind) (children : List Term)

namespace Term

def kind : Term -> Kind
  | mk kind _ => kind

def children : Term -> List Term
  | mk _ children => children

@[simp] theorem kind_mk (kind : Kind) (children : List Term) : (mk kind children).kind = kind := rfl

@[simp] theorem children_mk (kind : Kind) (children : List Term) :
    (mk kind children).children = children := rfl

/-- Induction on terms and lists of terms together. -/
theorem induction_both {motive : Term -> Prop} {motives : List Term -> Prop}
    (step : forall kind children, motives children -> motive (mk kind children))
    (nil : motives [])
    (cons : forall term rest, motive term -> motives rest -> motives (term :: rest)) :
    (forall term, motive term) ∧ forall terms, motives terms :=
  ⟨fun term => Term.rec (motive_1 := motive) (motive_2 := motives) step nil cons term,
    fun terms => Term.rec_1 (motive_1 := motive) (motive_2 := motives) step nil cons terms⟩

/-- Induction on terms, with the statement known of every operand. -/
theorem induction {motive : Term -> Prop}
    (step : forall kind children, (forall child, child ∈ children -> motive child) ->
      motive (mk kind children)) (term : Term) : motive term := by
  have both : (forall term, motive term) ∧
      forall terms : List Term, forall child, child ∈ terms -> motive child := by
    apply induction_both step (fun _ impossible => (List.not_mem_nil impossible).elim)
    intro term rest head tail child member
    rcases List.mem_cons.mp member with same | later
    · exact same ▸ head
    · exact tail child later
  exact both.1 term

/-! ## Subterms -/

mutual

/-- A term and all terms below it, in pre-order. -/
def subterms : Term -> List Term
  | mk kind children => mk kind children :: subtermsAll children

def subtermsAll : List Term -> List Term
  | [] => []
  | term :: rest => term.subterms ++ subtermsAll rest

end

theorem subtermsAll_eq_flatMap (terms : List Term) :
    subtermsAll terms = terms.flatMap subterms := by
  induction terms with
  | nil => rfl
  | cons term rest ih => rw [subtermsAll, ih, List.flatMap_cons]

/-- What is said of all subterms is said of the term and of all subterms of its
operands. -/
theorem forall_mem_subterms_mk {good : Term -> Prop} {kind : Kind} {children : List Term} :
    (forall inner, inner ∈ (mk kind children).subterms -> good inner) ↔
      good (mk kind children) ∧
        forall child, child ∈ children -> forall inner, inner ∈ child.subterms -> good inner := by
  rw [subterms, List.forall_mem_cons, subtermsAll_eq_flatMap]
  refine and_congr Iff.rfl ⟨fun below child isChild inner within => ?_, fun each inner below => ?_⟩
  · exact below inner (List.mem_flatMap.mpr ⟨child, isChild, within⟩)
  · rcases List.mem_flatMap.mp below with ⟨child, isChild, within⟩
    exact each child isChild inner within

/-! ## Predicates -/

/-- A term that is not logical, or the negation of one, or a negation without
operand. -/
def isLiteral (term : Term) : Bool :=
  match term.kind with
  | .connective _ => false
  | .not =>
      match term.children with
      | [] => true
      | operand :: _ => !operand.kind.isLogical
  | _ => true

def isNnf (term : Term) : Bool :=
  term.subterms.all (fun inner => inner.kind != .not || inner.isLiteral)

def isMerged (term : Term) : Bool :=
  !term.kind.isAssociative || term.children.all (fun child => child.kind != term.kind)

def isFlat (term : Term) : Bool :=
  term.subterms.all isMerged

/-- Every negation of the term has exactly one operand. -/
def isUnary (term : Term) : Bool :=
  term.subterms.all (fun inner => inner.kind != .not || inner.children.length == 1)

/-- A test of all subterms is a test of the term and of all subterms of its
operands. -/
theorem all_subterms_mk (test : Term -> Bool) (kind : Kind) (children : List Term) :
    (mk kind children).subterms.all test = true ↔
      test (mk kind children) = true ∧
        forall child, child ∈ children -> child.subterms.all test = true := by
  rw [subterms, List.all_cons, Bool.and_eq_true, subtermsAll_eq_flatMap, List.all_flatMap,
    List.all_eq_true]

/-! ## Normal forms -/

mutual

/-- Negations are moved to the literals. -/
def nnf : Term -> Term
  | mk .not (operand :: others) => operand.nnfNot others
  | mk kind children => mk kind (nnfAll children)

/-- The same for the negation of a term, given the further operands that the
negation has. -/
def nnfNot (others : List Term) : Term -> Term
  | mk .not [] => mk .not (mk .not [] :: others)
  | mk .not (inner :: _) => inner.nnf
  | mk (.connective symbol) children => mk (.connective symbol.dual) (nnfNotAll children)
  | mk kind children => mk .not (mk kind (nnfAll children) :: others)

def nnfAll : List Term -> List Term
  | [] => []
  | term :: rest => term.nnf :: nnfAll rest

def nnfNotAll : List Term -> List Term
  | [] => []
  | term :: rest => term.nnfNot [] :: nnfNotAll rest

end

mutual

/-- Operands of the same connective are merged, from the leaves on. -/
def flat : Term -> Term
  | mk kind children => mk kind (flatAll kind children)

def flatAll (outer : Kind) : List Term -> List Term
  | [] => []
  | term :: rest =>
      (if outer.absorbs term.kind then term.flat.children else [term.flat]) ++ flatAll outer rest

end

mutual

/-- The clauses of a term in negation normal form: those of its operands one
after the other for a disjunction, and all ordered combinations of them for a
conjunction. -/
def clauses : Term -> List (List Term)
  | mk .or children => (clausesAll children).flatten
  | mk .and children => combinations (clausesAll children)
  | mk kind children => [[mk kind children]]

def clausesAll : List Term -> List (List (List Term))
  | [] => []
  | term :: rest => term.clauses :: clausesAll rest

end

/-- The disjunction of some conjunctions. -/
def ofClauses (clauses : List (List Term)) : Term :=
  mk .or (clauses.map (mk .and))

/-- The disjunctive normal form of a term that is in negation normal form and
flat.  The conjunction without operands is an exception. -/
def dnf : Term -> Term
  | mk .and [] => ofClauses []
  | term => ofClauses term.clauses

theorem dnf_of_not_childless {term : Term} (notChildless : term ≠ .mk .and []) :
    term.dnf = ofClauses term.clauses := by
  rw [dnf]
  exact notChildless

theorem nnfAll_eq_map (terms : List Term) : nnfAll terms = terms.map nnf := by
  induction terms with
  | nil => rfl
  | cons term rest ih => rw [nnfAll, ih, List.map_cons]

theorem nnfNotAll_eq_map (terms : List Term) : nnfNotAll terms = terms.map (nnfNot []) := by
  induction terms with
  | nil => rfl
  | cons term rest ih => rw [nnfNotAll, ih, List.map_cons]

theorem nnf_of_ne_not {kind : Kind} (other : kind ≠ .not) (children : List Term) :
    (mk kind children).nnf = mk kind (nnfAll children) := by
  rw [nnf]
  intro operand others impossible _
  exact other impossible

theorem nnfNot_of_not_logical {kind : Kind} (notLogical : kind.isLogical = false)
    (others children : List Term) :
    (mk kind children).nnfNot others = mk .not (mk kind (nnfAll children) :: others) := by
  cases kind with
  | not => exact Bool.noConfusion notLogical
  | connective symbol => exact Bool.noConfusion notLogical
  | _ => rfl

theorem clauses_of_literal {term : Term} (literal : forall symbol, term.kind ≠ .connective symbol) :
    term.clauses = [[term]] := by
  rcases term with ⟨kind, children⟩
  cases kind with
  | connective symbol => exact (literal symbol rfl).elim
  | _ => rfl

end Term

/-! ## The term of an expression -/

namespace Node

mutual

def term : Node -> Term
  | mk _ kind children => .mk kind (terms children)

def terms : List Node -> List Term
  | [] => []
  | node :: rest => node.term :: terms rest

end

theorem terms_eq_map (nodes : List Node) : terms nodes = nodes.map term := by
  induction nodes with
  | nil => rfl
  | cons node rest ih => rw [terms, ih, List.map_cons]

theorem term_mk (handle : Handle) (kind : Kind) (children : List Node) :
    (mk handle kind children).term = .mk kind (children.map term) := by
  rw [term, terms_eq_map]

theorem kind_term (node : Node) : node.term.kind = node.kind := by
  cases node
  rfl

theorem children_term (node : Node) : node.term.children = node.children.map term := by
  cases node
  exact terms_eq_map _

/-- The terms of the nodes of an expression. -/
theorem map_term_preorder :
    (forall node : Node, node.preorder.map term = node.term.subterms) ∧
      forall nodes : List Node, (preorderAll nodes).map term = Term.subtermsAll (terms nodes) := by
  refine induction_both ?_ rfl ?_
  · intro handle kind children ih
    rw [preorder, List.map_cons, ih, term, Term.subterms]
  · intro node rest head tail
    rw [preorderAll, List.map_append, head, tail, terms, Term.subtermsAll]

/-- A test of all nodes that looks at terms only is a test of all subterms. -/
theorem all_preorder_eq (node : Node) (test : Node -> Bool) (on : Term -> Bool)
    (same : forall inner : Node, test inner = on inner.term) :
    node.preorder.all test = node.term.subterms.all on := by
  rw [← map_term_preorder.1 node, List.all_map]
  congr 1
  funext inner
  exact same inner

theorem isLiteral_eq (node : Node) : node.isLiteral = node.term.isLiteral := by
  rcases node with ⟨handle, kind, children⟩
  cases kind with
  | not =>
      cases children with
      | nil => rfl
      | cons operand others =>
          change (!operand.kind.isLogical) = !operand.term.kind.isLogical
          rw [kind_term]
  | _ => rfl

theorem isMerged_eq (node : Node) : node.isMerged = node.term.isMerged := by
  unfold isMerged Term.isMerged
  rw [kind_term, children_term, List.all_map]
  congr 2
  funext child
  exact congrArg (· != node.kind) child.kind_term.symm

theorem isNnf_eq (node : Node) : node.isNnf = node.term.isNnf :=
  node.all_preorder_eq _ _ (fun inner => by rw [inner.kind_term, inner.isLiteral_eq])

theorem isFlat_eq (node : Node) : node.isFlat = node.term.isFlat :=
  node.all_preorder_eq _ _ isMerged_eq

/-- A copy has the same term. -/
theorem term_copy :
    (forall (node : Node) (first : Handle), (node.copy first).1.term = node.term) ∧
      forall (nodes : List Node) (first : Handle),
        terms (copyAll first nodes).1 = terms nodes := by
  refine induction_both ?_ ?_ ?_
  · intro handle kind children ih first
    rw [copy, term, term, ih]
  · exact fun first => rfl
  · intro node rest head tail first
    rw [copyAll, terms, terms, head, tail]

end Node

end PlanningDomain
