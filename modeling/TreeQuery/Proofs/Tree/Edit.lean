import Mathlib.Logic.Relation
import TreeQuery.Tree.Build

/-! What a growth step can do to a tree: a few kinds of edits, one after another.
An invariant of trees is one that each kind of edit preserves. -/
namespace TreeQuery

namespace Node

/-- A node that no link leaves. -/
def Unlinked (node : Node) : Prop :=
  node.parent = none ∧ node.firstChild = none ∧ node.lastChild = none ∧
    node.prevSibling = none ∧ node.nextSibling = none

/-- A node that may be put into a tree: neither linked nor a second document. -/
structure Fresh (node : Node) : Prop where
  unlinked : node.Unlinked
  content : node.content ≠ .document

/-- A node without its attributes. -/
def frame (node : Node) : Node :=
  match node.content with
  | .element element => { node with content := .element { element with attributes := [] } }
  | _ => node

theorem fresh_ofElement (name : QualifiedName) : (ofElement name).Fresh :=
  ⟨⟨rfl, rfl, rfl, rfl, rfl⟩, nofun⟩

theorem fresh_ofText (content : String) : (ofText content).Fresh :=
  ⟨⟨rfl, rfl, rfl, rfl, rfl⟩, nofun⟩

theorem fresh_ofComment (content : String) : (ofComment content).Fresh :=
  ⟨⟨rfl, rfl, rfl, rfl, rfl⟩, nofun⟩

@[simp] theorem frame_isContainer (node : Node) : node.frame.isContainer = node.isContainer := by
  obtain ⟨content, _, _, _, _, _⟩ := node
  cases content <;> rfl

theorem frame_content_eq_document {node : Node} :
    node.frame.content = .document ↔ node.content = .document := by
  obtain ⟨content, _, _, _, _, _⟩ := node
  cases content <;> simp [frame]

theorem frame_links (node : Node) : node.frame.parent = node.parent ∧
    node.frame.firstChild = node.firstChild ∧ node.frame.lastChild = node.lastChild ∧
    node.frame.prevSibling = node.prevSibling ∧ node.frame.nextSibling = node.nextSibling := by
  obtain ⟨content, _, _, _, _, _⟩ := node
  cases content <;> exact ⟨rfl, rfl, rfl, rfl, rfl⟩

theorem Fresh.of_frame {node changed : Node} (h : node.Fresh) (hf : changed.frame = node.frame) :
    changed.Fresh := by
  constructor
  · obtain ⟨hp, hfirst, hlast, hprev, hnext⟩ := frame_links changed
    obtain ⟨kp, kfirst, klast, kprev, knext⟩ := frame_links node
    rw [Unlinked, ← hp, ← hfirst, ← hlast, ← hprev, ← hnext, hf, kp, kfirst, klast, kprev, knext]
    exact h.unlinked
  · rw [ne_eq, ← frame_content_eq_document, hf, frame_content_eq_document]
    exact h.content

theorem frame_setAttribute? {node changed : Node} {name : QualifiedName} {value : String}
    (h : node.setAttribute? name value = some changed) : changed.frame = node.frame := by
  obtain ⟨content, parent, firstChild, lastChild, prevSibling, nextSibling⟩ := node
  cases content with
  | element element => cases h; rfl
  | document => cases h
  | text => cases h
  | comment => cases h

end Node

namespace Tree

theorem checkAppend_eq_ok {tree : Tree} {parent child : NodeId} :
    tree.checkAppend parent child = .ok () ↔
      (∃ node, tree.node? parent = some node ∧ node.isContainer = true) ∧
      (∃ node, tree.node? child = some node ∧ node.parent = none) ∧
      child ≠ .root ∧ child ≠ parent ∧ child ∉ tree.ancestors parent := by
  rw [checkAppend]
  cases tree.node? parent with
  | none => simp
  | some holder =>
    cases tree.node? child with
    | none => cases hh : holder.isContainer <;> simp [hh]
    | some node =>
      cases hh : holder.isContainer <;> cases hp : node.parent <;>
        by_cases hr : child = .root <;> simp [hh, hp, hr]

theorem node?_modify_map (tree : Tree) (id other : NodeId) (change : Node → Node) :
    (tree.modify id change).node? other =
      (tree.node? other).map fun node => if id = other then change node else node := by
  rw [node?_modify]
  by_cases h : id = other
  · simp only [if_pos h]
  · simp only [if_neg h, Option.map_id']

/-- What a node becomes when a child is linked to a parent. -/
def relinked (tree : Tree) (parent child id : NodeId) (node : Node) : Node :=
  { node with
    parent := if child = id then some parent else node.parent
    firstChild := if parent = id ∧ tree.lastChild? parent = none then some child
      else node.firstChild
    lastChild := if parent = id then some child else node.lastChild
    prevSibling := if child = id then tree.lastChild? parent else node.prevSibling
    nextSibling := if tree.lastChild? parent = some id then some child else node.nextSibling }

theorem node?_link (tree : Tree) (parent child id : NodeId) :
    (tree.link parent child).node? id = (tree.node? id).map (tree.relinked parent child id) := by
  unfold link relinked
  cases tree.lastChild? parent with
  | none =>
    simp only [node?_modify_map, Option.map_map, Function.comp_def]
    congr 1
    funext node
    by_cases hc : child = id <;> by_cases hp : parent = id <;> simp [hc, hp]
  | some last =>
    simp only [node?_modify_map, Option.map_map, Function.comp_def]
    congr 1
    funext node
    by_cases hc : child = id <;> by_cases hp : parent = id <;> by_cases hs : last = id <;>
      simp [hc, hp, hs]

theorem names_link (tree : Tree) (parent child : NodeId) :
    (tree.link parent child).names = tree.names := by
  unfold link
  cases tree.lastChild? parent <;> rfl

theorem size_link (tree : Tree) (parent child : NodeId) :
    (tree.link parent child).size = tree.size := by
  unfold link
  cases tree.lastChild? parent <;> simp

theorem element?_link (tree : Tree) (parent child id : NodeId) :
    (tree.link parent child).element? id = tree.element? id := by
  rw [element?, element?, node?_link, Option.bind_map]
  rfl

theorem node?_push (tree : Tree) (node : Node) (id : NodeId) :
    node? { tree with nodes := tree.nodes.push node } id =
      if id.index = tree.size then some node else tree.node? id :=
  Array.getElem?_push

/-- A tree with the nodes of another, up to attributes, and perhaps a fresh one besides. -/
def Extends (after tree : Tree) : Prop :=
  ∀ id, (after.node? id).map Node.frame = (tree.node? id).map Node.frame ∨
    tree.node? id = none ∧ ∃ node, after.node? id = some node ∧ node.Fresh

theorem extends_push (tree : Tree) {node : Node} (hn : node.Fresh) :
    Extends { tree with nodes := tree.nodes.push node } tree := by
  intro id
  rw [node?_push]
  by_cases hi : id.index = tree.size
  · rw [if_pos hi]
    refine .inr ⟨?_, node, rfl, hn⟩
    exact Array.getElem?_eq_none (Nat.le_of_eq hi.symm)
  · rw [if_neg hi]
    exact .inl rfl

theorem extends_modify {tree : Tree} {id : NodeId} {node changed : Node}
    (hn : tree.node? id = some node) (hf : changed.frame = node.frame) :
    Extends (tree.modify id fun _ => changed) tree := by
  intro other
  rw [node?_modify]
  by_cases h : id = other
  · subst h
    rw [if_pos rfl, hn, Option.map_some, Option.map_some, Option.map_some, hf]
    exact .inl rfl
  · rw [if_neg h]
    exact .inl rfl

/-- One edit of a tree. Links are made only where the check allows them. -/
inductive Edit : Tree → Tree → Prop where
  | intern (tree : Tree) (name : String) : Edit tree (tree.intern name).2
  | push (tree : Tree) (node : Node) (hs : tree.size < NodeId.limit) (hn : node.Fresh) :
      Edit tree { tree with nodes := tree.nodes.push node }
  | set (tree : Tree) (id : NodeId) (node changed : Node) (hn : tree.node? id = some node)
      (hf : changed.frame = node.frame) : Edit tree (tree.modify id fun _ => changed)
  | link (tree : Tree) (parent child : NodeId) (h : tree.checkAppend parent child = .ok ()) :
      Edit tree (tree.link parent child)

abbrev Edits : Tree → Tree → Prop := Relation.ReflTransGen Edit

theorem Edits.preserve {P : Tree → Prop} (step : ∀ {tree after}, Edit tree after → P tree → P after)
    {tree after : Tree} (h : Edits tree after) (hp : P tree) : P after := by
  induction h with
  | refl => exact hp
  | tail _ h ih => exact step h ih

theorem create_edits (tree : Tree) {node : Node} (hn : node.Fresh) :
    Edits tree (tree.create node).2 := by
  unfold create NodeId.ofIndex?
  by_cases hs : tree.size < NodeId.limit
  · rw [if_pos hs]
    exact .single (.push tree node hs hn)
  · rw [if_neg hs]

theorem createElement_edits (tree : Tree) (name : String) :
    Edits tree (tree.createElement name).2 :=
  .head (.intern tree name) (create_edits _ (Node.fresh_ofElement _))

theorem createElementIn_edits (tree : Tree) (ns name : String) :
    Edits tree (tree.createElementIn ns name).2 :=
  .head (.intern tree ns) (.head (.intern _ name) (create_edits _ (Node.fresh_ofElement _)))

theorem createText_edits (tree : Tree) (content : String) :
    Edits tree (tree.createText content).2 :=
  create_edits tree (Node.fresh_ofText content)

theorem append_edits (tree : Tree) (parent child : NodeId) :
    Edits tree (tree.append parent child).2 := by
  rw [append]
  cases h : tree.checkAppend parent child with
  | error e => exact .refl
  | ok => exact .single (.link tree parent child h)

theorem setQualified_edits (tree : Tree) (id : NodeId) (name : QualifiedName) (value : String) :
    Edits tree (tree.setQualified id name value).2 := by
  rw [setQualified]
  split
  · exact .refl
  · rename_i node hn
    split
    · exact .refl
    · rename_i changed hc
      exact .single (.set tree id node changed hn (Node.frame_setAttribute? hc))

theorem setAttribute_edits (tree : Tree) (id : NodeId) (name value : String) :
    Edits tree (tree.setAttribute id name value).2 :=
  .head (.intern tree name) (setQualified_edits _ id _ value)

theorem setAttributes_edits (tree : Tree) (id : NodeId) (attributes : List (String × String)) :
    Edits tree (tree.setAttributes id attributes).2 := by
  induction attributes generalizing tree with
  | nil => exact .refl
  | cons first rest ih =>
    have h := setAttribute_edits tree id first.1 first.2
    rw [setAttributes]
    split
    · rename_i e after he
      rw [he] at h
      exact h
    · rename_i after he
      rw [he] at h
      exact h.trans (ih after)

theorem appendElement_edits (tree : Tree) (parent : NodeId) (name : String)
    (attributes : List (String × String)) :
    Edits tree (tree.appendElement parent name attributes).2 := by
  have hc := createElement_edits tree name
  rw [appendElement]
  split
  · rename_i e after he
    rw [he] at hc
    exact hc
  · rename_i id made he
    rw [he] at hc
    have hs := setAttributes_edits made id attributes
    split
    · rename_i e after he
      rw [he] at hs
      exact hc.trans hs
    · rename_i after he
      rw [he] at hs
      exact (hc.trans hs).trans (append_edits after parent id)

theorem appendText_edits (tree : Tree) (parent : NodeId) (content : String) :
    Edits tree (tree.appendText parent content).2 := by
  have hc := createText_edits tree content
  rw [appendText]
  split
  · rename_i e after he
    rw [he] at hc
    exact hc
  · rename_i id made he
    rw [he] at hc
    exact hc.trans (append_edits made parent id)

end Tree

/-- Every growth step, failing or not, amounts to edits. -/
theorem Growth.next_edits (tree : Tree) (step : Growth) : Tree.Edits tree (step.next tree) := by
  cases step with
  | createElement name => exact tree.createElement_edits name
  | createElementIn ns name => exact tree.createElementIn_edits ns name
  | createText content => exact tree.createText_edits content
  | createComment content => exact tree.create_edits (Node.fresh_ofComment content)
  | append parent child => exact tree.append_edits parent child
  | appendElement parent name attributes => exact tree.appendElement_edits parent name attributes
  | appendText parent content => exact tree.appendText_edits parent content
  | setAttribute id name value => exact tree.setAttribute_edits id name value

/-- What holds of the smallest tree and survives every edit holds of every reachable tree. -/
theorem Tree.Reachable.induct {P : Tree → Prop} (start : P .empty)
    (step : ∀ {tree after}, Edit tree after → P tree → P after) {tree : Tree}
    (h : tree.Reachable) : P tree := by
  obtain ⟨steps, rfl⟩ := h
  rw [Tree.grow]
  generalize Tree.empty = tree at start
  induction steps generalizing tree with
  | nil => exact start
  | cons first rest ih => exact ih _ ((Growth.next_edits tree first).preserve step start)

end TreeQuery
