import TreeQuery.Proofs.Tree.Append
import TreeQuery.Selector.Support

/-! What an append asks for and what it does.
Its rules are said here through the links alone; on a reachable tree the check, which walks up from
the parent, answers with the first rule that is broken. An append that breaks none is the append to
a list of children, and changes nothing else. -/
namespace TreeQuery

/-- What an append asks for. -/
inductive AppendRule where
  | parentExists
  | parentTakesChildren
  | childExists
  | childIsNoDocument
  | childStandsAlone
  | childNotAbove
  deriving DecidableEq, Repr

namespace AppendRule

variable {tree : Tree} {parent child : NodeId} {rule : AppendRule}

def all : List AppendRule :=
  [parentExists, parentTakesChildren, childExists, childIsNoDocument, childStandsAlone,
    childNotAbove]

def Holds (tree : Tree) (parent child : NodeId) : AppendRule → Prop
  | parentExists => tree.contains parent = true
  | parentTakesChildren => ∃ node, tree.node? parent = some node ∧
      (node.content = .document ∨ ∃ element, node.content = .element element)
  | childExists => tree.contains child = true
  | childIsNoDocument => ∀ node, tree.node? child = some node → node.content ≠ .document
  | childStandsAlone => tree.parent? child = none
  | childNotAbove => ¬ tree.Inside parent child

def error (parent child : NodeId) : AppendRule → TreeError
  | parentExists => .notFound parent
  | parentTakesChildren => .wrongKind .appendTo
  | childExists => .notFound child
  | childIsNoDocument => .hierarchy .documentAsChild
  | childStandsAlone => .hierarchy .alreadyAppended
  | childNotAbove => .hierarchy .ownAncestor

/-- A rule is broken, and those that are asked before it hold. -/
def FirstBroken (tree : Tree) (parent child : NodeId) (rule : AppendRule) : Prop :=
  ∃ front back, all = front ++ rule :: back ∧
    (∀ earlier ∈ front, earlier.Holds tree parent child) ∧ ¬ rule.Holds tree parent child

open Classical in
noncomputable def check (tree : Tree) (parent child : NodeId) (rule : AppendRule) :
    Except TreeError Unit :=
  if rule.Holds tree parent child then .ok () else .error (rule.error parent child)

theorem check_of_holds (h : rule.Holds tree parent child) :
    rule.check tree parent child = .ok () :=
  if_pos h

theorem check_of_broken (h : ¬ rule.Holds tree parent child) :
    rule.check tree parent child = .error (rule.error parent child) :=
  if_neg h

theorem check_eq_ok_iff : rule.check tree parent child = .ok () ↔ rule.Holds tree parent child := by
  by_cases h : rule.Holds tree parent child
  · simp [check_of_holds h, h]
  · simp [check_of_broken h, h]

theorem check_eq_error_iff {e : TreeError} : rule.check tree parent child = .error e ↔
    ¬ rule.Holds tree parent child ∧ e = rule.error parent child := by
  by_cases h : rule.Holds tree parent child
  · simp [check_of_holds h, h]
  · simp [check_of_broken h, h, eq_comm]

theorem mem_all (rule : AppendRule) : rule ∈ all := by
  cases rule <;> decide

end AppendRule

theorem Node.isContainer_iff {node : Node} : node.isContainer = true ↔
    node.content = .document ∨ ∃ element, node.content = .element element := by
  rw [isContainer]
  cases node.content <;> simp

namespace Tree

variable {tree after : Tree} {parent child id : NodeId} {e : TreeError}

/-- All that differs after a node has become the last child of another, and that nothing else
does. -/
structure Adopted (tree after : Tree) (parent child : NodeId) : Prop where
  children : after.children parent = tree.children parent ++ [child]
  childrenElsewhere : ∀ id, id ≠ parent → after.children id = tree.children id
  parent : after.parent? child = some parent
  parentElsewhere : ∀ id, id ≠ child → after.parent? id = tree.parent? id
  content : ∀ id, (after.node? id).map Node.content = (tree.node? id).map Node.content
  names : after.names = tree.names
  walk : ∀ id, Route after.nextSibling? (after.firstChild? id) (after.children id)

namespace Forest

variable (f : Forest tree tree.children)

include f

open AppendRule in
/-- The check asks the rules one after another and stops at the first that is broken. -/
theorem checkAppend_eq (parent child : NodeId) :
    tree.checkAppend parent child = all.forM (check tree parent child) := by
  rw [checkAppend]
  simp only [all, List.forM]
  cases hp : tree.node? parent with
  | none =>
    have hexists : ¬ parentExists.Holds tree parent child := by simp [Holds, contains, hp]
    rw [check_of_broken hexists]
    rfl
  | some holder =>
    have hexists : parentExists.Holds tree parent child := contains_of_node? hp
    have htakes : parentTakesChildren.Holds tree parent child ↔ holder.isContainer = true := by
      simp [Holds, hp, Node.isContainer_iff]
    rw [check_of_holds hexists]
    dsimp only
    cases hh : holder.isContainer with
    | false =>
      rw [check_of_broken (by simp [htakes, hh])]
      rfl
    | true =>
      rw [check_of_holds (htakes.mpr hh)]
      cases hc : tree.node? child with
      | none =>
        have hchild : ¬ childExists.Holds tree parent child := by simp [Holds, contains, hc]
        rw [check_of_broken hchild]
        rfl
      | some node =>
        have hchild : childExists.Holds tree parent child := contains_of_node? hc
        have hdocument : childIsNoDocument.Holds tree parent child ↔ child ≠ .root := by
          simp [Holds, hc, f.document hc]
        have halone : childStandsAlone.Holds tree parent child ↔ node.parent = none := by
          simp [Holds, parent?, hc]
        have habove : childNotAbove.Holds tree parent child ↔
            child ∉ parent :: tree.ancestors parent := not_congr f.inSubtree_iff.symm
        rw [check_of_holds hchild]
        simp only [check, hdocument, halone, habove]
        by_cases hroot : child = .root <;> cases hnp : node.parent <;>
          by_cases hm : child ∈ parent :: tree.ancestors parent <;>
          simp [hroot, hm, error, bind, Except.bind, pure, Except.pure]

theorem checkAppend_eq_ok_iff :
    tree.checkAppend parent child = .ok () ↔ ∀ rule : AppendRule, rule.Holds tree parent child := by
  rw [f.checkAppend_eq, forM_eq_ok_iff]
  constructor
  · intro h rule
    exact AppendRule.check_eq_ok_iff.mp (h rule rule.mem_all)
  · intro h rule _
    exact AppendRule.check_of_holds (h rule)

theorem checkAppend_eq_error_iff : tree.checkAppend parent child = .error e ↔
    ∃ rule : AppendRule, rule.FirstBroken tree parent child ∧ e = rule.error parent child := by
  rw [f.checkAppend_eq, forM_eq_error_iff]
  constructor
  · rintro ⟨front, rule, back, hall, hfront, hrule⟩
    obtain ⟨hbroken, he⟩ := AppendRule.check_eq_error_iff.mp hrule
    exact ⟨rule, ⟨front, back, hall, fun r hr => AppendRule.check_eq_ok_iff.mp (hfront r hr),
      hbroken⟩, he⟩
  · rintro ⟨rule, ⟨front, back, hall, hfront, hbroken⟩, he⟩
    exact ⟨front, rule, back, hall, fun r hr => AppendRule.check_of_holds (hfront r hr),
      AppendRule.check_eq_error_iff.mpr ⟨hbroken, he⟩⟩

theorem adopted_link (h : tree.checkAppend parent child = .ok ()) :
    tree.Adopted (tree.link parent child) parent child := by
  obtain ⟨-, ⟨node, hn, -⟩, -⟩ := checkAppend_eq_ok.mp h
  have hc := contains_of_node? hn
  have hgrown := f.link h
  have hchildren : (tree.link parent child).children = adopt tree.children parent child :=
    hgrown.children_eq
  constructor
  case children => rw [hchildren, adopt, Function.update_self]
  case childrenElsewhere =>
    intro id hne
    rw [hchildren, adopt, Function.update_of_ne hne]
  case parent => rw [parent?_link hc, if_pos rfl]
  case parentElsewhere =>
    intro id hne
    rw [parent?_link hc, if_neg (Ne.symm hne)]
  case content =>
    intro id
    rw [node?_link, Option.map_map]
    rfl
  case names => exact tree.names_link parent child
  case walk =>
    intro id
    rw [hchildren, hgrown.first]
    exact (hgrown.chain id).route

theorem climb (h : tree.contains parent = true) :
    Route tree.parent? (some parent) (parent :: tree.ancestors parent) ∧
      ∀ a ∈ parent :: tree.ancestors parent, tree.contains a = true :=
  ⟨.move (f.route_ancestors parent),
    List.forall_mem_cons.mpr ⟨h, fun _ ha => f.contains_ancestor ha⟩⟩

end Forest

theorem append_eq_ok_iff : tree.append parent child = (.ok id, after) ↔
    tree.checkAppend parent child = .ok () ∧ id = child ∧ after = tree.link parent child := by
  rw [append]
  cases tree.checkAppend parent child with
  | error e => simp
  | ok => simp [eq_comm]

theorem append_eq_error_iff : tree.append parent child = (.error e, after) ↔
    tree.checkAppend parent child = .error e ∧ after = tree := by
  rw [append]
  cases tree.checkAppend parent child with
  | error e => simp [eq_comm]
  | ok => simp

/-- An append succeeds exactly when no rule is broken, and then does nothing but append; otherwise
it answers with the first broken rule and leaves the tree as it was. -/
theorem Reachable.append_answers (h : tree.Reachable) (parent child : NodeId) :
    ((∃ after, tree.append parent child = (.ok child, after)) ↔
      ∀ rule : AppendRule, rule.Holds tree parent child) ∧
    (∀ id after, tree.append parent child = (.ok id, after) →
      id = child ∧ tree.Adopted after parent child) ∧
    (∀ e after, tree.append parent child = (.error e, after) ↔
      after = tree ∧ ∃ rule : AppendRule, rule.FirstBroken tree parent child ∧
        e = rule.error parent child) ∧
    (tree.contains parent = true →
      Route tree.parent? (some parent) (parent :: tree.ancestors parent) ∧
        ∀ a ∈ parent :: tree.ancestors parent, tree.contains a = true) := by
  have f := h.forest
  refine ⟨?_, ?_, ?_, f.climb⟩
  · rw [← f.checkAppend_eq_ok_iff]
    constructor
    · rintro ⟨after, ha⟩
      exact (append_eq_ok_iff.mp ha).1
    · intro hc
      exact ⟨_, append_eq_ok_iff.mpr ⟨hc, rfl, rfl⟩⟩
  · intro id after ha
    obtain ⟨hc, hid, rfl⟩ := append_eq_ok_iff.mp ha
    exact ⟨hid, f.adopted_link hc⟩
  · intro e after
    rw [append_eq_error_iff, f.checkAppend_eq_error_iff, and_comm]

/-- The head of a detached subtree is refused below itself, and may then be joined to the root. -/
theorem append_answers_detached :
    let tree := Tree.grow [.createElement "a", .createElement "b", .append ⟨1⟩ ⟨2⟩]
    tree.Reachable ∧ AppendRule.childNotAbove.FirstBroken tree ⟨2⟩ ⟨1⟩ ∧
      tree.Adopted (tree.append .root ⟨1⟩).2 .root ⟨1⟩ := by
  intro tree
  have hr : tree.Reachable := ⟨_, rfl⟩
  have hbroken : tree.append ⟨2⟩ ⟨1⟩ = (.error (.hierarchy .ownAncestor), tree) := rfl
  have hjoined : tree.append .root ⟨1⟩ = (.ok ⟨1⟩, (tree.append .root ⟨1⟩).2) := rfl
  obtain ⟨-, hok, herror, -⟩ := hr.append_answers .root ⟨1⟩
  obtain ⟨-, rule, hfirst, he⟩ := ((hr.append_answers ⟨2⟩ ⟨1⟩).2.2.1 _ _).mp hbroken
  cases rule <;> cases he
  exact ⟨hr, hfirst, (hok _ _ hjoined).2⟩

end Tree

end TreeQuery
