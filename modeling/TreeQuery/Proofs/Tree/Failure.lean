import TreeQuery.Proofs.Tree.Links
import TreeQuery.Proofs.Tree.Preorder
import TreeQuery.Proofs.Tree.Records

/-! What a step that fails leaves behind.
Before it failed the step may have given numbers to names and made a node. The numbers given out
earlier stay as they are, and no link joins the node to another one: all that is read from older
nodes, and every walk among them, is as it was. -/
namespace TreeQuery

/-- A table that has all that another one has, and perhaps more behind it. -/
structure NameTable.Grown (table after : NameTable) : Prop where
  entries : table.entries.toList <+: after.entries.toList
  buffer : ∃ more, after.buffer = table.buffer ++ more
  numbers : table.Keeps after

namespace NameTable.Grown

variable {table after : NameTable}

theorem refl (table : NameTable) : table.Grown table :=
  ⟨List.prefix_rfl, ⟨"", (String.append_empty ..).symm⟩, Keeps.refl table⟩

theorem intern (h : table.Grown after) (name : String) : table.Grown (after.intern name).2 := by
  obtain ⟨more, hb⟩ := h.buffer
  refine ⟨h.entries.trans ?_, ?_, fun hn => after.keeps_intern name (h.numbers hn)⟩
  · rw [NameTable.intern]
    split
    · exact List.prefix_rfl
    · rw [Array.toList_push]
      exact List.prefix_append _ _
  · rw [NameTable.intern]
    split
    · exact ⟨more, hb⟩
    · exact ⟨more ++ name, by rw [hb, String.append_assoc]⟩

end NameTable.Grown

namespace Tree

variable {tree after : Tree} {id p c : NodeId}

/-- What is left of a tree when a step fails: all nodes with all that they hold, and perhaps one
more that nothing links. -/
structure Kept (tree after : Tree) : Prop where
  node : ∀ id, tree.contains id = true → after.node? id = tree.node? id
  size : after.size ≤ tree.size + 1
  fresh : ∀ id node, tree.contains id = false → after.node? id = some node → node.Fresh
  names : tree.names.Grown after.names

namespace Kept

theorem refl (tree : Tree) : tree.Kept tree := by
  refine ⟨fun _ _ => rfl, Nat.le_succ _, fun id node hid hn => ?_, .refl tree.names⟩
  rw [contains_of_node? hn] at hid
  cases hid

variable (h : tree.Kept after)

include h

theorem intern (name : String) : tree.Kept (after.intern name).2 :=
  ⟨h.node, h.size, h.fresh, h.names.intern name⟩

theorem create (hs : after.size = tree.size) {node : Node} (hn : node.Fresh) :
    tree.Kept (after.create node).2 := by
  rw [Tree.create, NodeId.ofIndex?]
  split
  · refine ⟨fun id hid => ?_, ?_, fun id new hid hnew => ?_, h.names⟩
    · have hne : id.index ≠ after.size := by
        rw [hs]
        exact Nat.ne_of_lt (contains_iff.mp hid)
      rw [node?_push, if_neg hne]
      exact h.node id hid
    · rw [← hs]
      exact Nat.le_of_eq (Array.size_push _)
    · rw [node?_push] at hnew
      by_cases hi : id.index = after.size
      · rw [if_pos hi] at hnew
        cases hnew
        exact hn
      · rw [if_neg hi] at hnew
        exact h.fresh id new hid hnew
  · exact h

theorem setAttribute (hid : tree.contains id = false) (name value : String) :
    tree.Kept (after.setAttribute id name value).2 := by
  have hinterned := h.intern name
  unfold Tree.setAttribute setQualified
  dsimp only
  split
  · exact hinterned
  · rename_i node hn
    split
    · exact hinterned
    · rename_i changed hc
      refine ⟨fun other ho => ?_, ?_, fun other new ho hnew => ?_, hinterned.names⟩
      · have hne : id ≠ other := by
          rintro rfl
          exact absurd (hid.symm.trans ho) nofun
        rw [node?_modify, if_neg hne]
        exact h.node other ho
      · rw [size_modify]
        exact h.size
      · rw [node?_modify] at hnew
        split at hnew
        · rw [Option.map_eq_some_iff] at hnew
          obtain ⟨_, _, rfl⟩ := hnew
          exact (h.fresh id node hid hn).of_frame (Node.frame_setAttribute? hc)
        · exact h.fresh other new ho hnew

theorem setAttributes (hid : tree.contains id = false) (attributes : List (String × String)) :
    tree.Kept (after.setAttributes id attributes).2 := by
  induction attributes generalizing after with
  | nil => exact h
  | cons first rest ih =>
    have hset := h.setAttribute hid first.1 first.2
    rw [Tree.setAttributes]
    split
    · rename_i e left he
      rw [he] at hset
      exact hset
    · rename_i left he
      rw [he] at hset
      exact ih hset

end Kept

section Errors

variable {e : TreeError}

theorem append_error {parent child : NodeId}
    (h : tree.append parent child = (.error e, after)) : after = tree := by
  rw [append] at h
  cases hc : tree.checkAppend parent child with
  | error e => rw [hc] at h; exact (Prod.mk.inj h).2.symm
  | ok => rw [hc] at h; cases h

theorem setAttribute_error {name value : String}
    (h : tree.setAttribute id name value = (.error e, after)) : after = (tree.intern name).2 := by
  cases he : tree.element? id with
  | some element =>
    obtain ⟨_, hset, -⟩ := exists_setAttribute he name value
    cases h.symm.trans hset
  | none =>
    obtain ⟨_, hset⟩ := exists_setAttribute_error he name value
    exact (Prod.mk.inj (h.symm.trans hset)).2

theorem createElement_kept (tree : Tree) (name : String) :
    tree.Kept (tree.createElement name).2 :=
  ((Kept.refl tree).intern name).create rfl (Node.fresh_ofElement _)

theorem appendElement_error {parent : NodeId} {name : String} {attributes : List (String × String)}
    (h : tree.appendElement parent name attributes = (.error e, after)) : tree.Kept after := by
  have hmade := tree.createElement_kept name
  have hplace := tree.createElement_answer name
  rw [appendElement] at h
  split at h
  · rename_i left hc
    rw [hc] at hmade
    exact (Prod.mk.inj h).2 ▸ hmade
  · rename_i id left hc
    rw [hc] at hmade hplace
    obtain ⟨-, rfl⟩ := place_eq_ok_iff.mp hplace.symm
    have hnew : tree.contains ⟨tree.size⟩ = false := by
      rw [Bool.eq_false_iff, ne_eq, contains_iff]
      exact Nat.lt_irrefl _
    have hset := hmade.setAttributes hnew attributes
    split at h
    · rename_i left hs
      rw [hs] at hset
      exact (Prod.mk.inj h).2 ▸ hset
    · rename_i left hs
      rw [hs] at hset
      exact append_error h ▸ hset

theorem appendText_error {parent : NodeId} {content : String}
    (h : tree.appendText parent content = (.error e, after)) : tree.Kept after := by
  have hmade : tree.Kept (tree.createText content).2 :=
    (Kept.refl tree).create rfl (Node.fresh_ofText content)
  rw [appendText] at h
  split at h
  · rename_i left hc
    rw [hc] at hmade
    exact (Prod.mk.inj h).2 ▸ hmade
  · rename_i id left hc
    rw [hc] at hmade
    exact append_error h ▸ hmade

end Errors

end Tree

theorem Growth.answer_error {built : Built NodeId} {after : Tree} {e : TreeError}
    (h : apply.answer built = (.error e, after)) : built = (.error e, after) := by
  obtain ⟨result, left⟩ := built
  cases result with
  | error e => cases h; rfl
  | ok made => cases h

/-- Every step that fails leaves the tree as it was, but for names and a node that nothing links. -/
theorem Growth.kept_of_error {tree after : Tree} {step : Growth} {e : TreeError}
    (h : step.apply tree = (.error e, after)) : tree.Kept after := by
  have hleft : (step.apply tree).2 = after := congrArg Prod.snd h
  have hself := Tree.Kept.refl tree
  cases step with
  | createElement name => exact hleft ▸ tree.createElement_kept name
  | createElementIn ns name =>
    exact hleft ▸ ((hself.intern ns).intern name).create rfl (Node.fresh_ofElement _)
  | createText content => exact hleft ▸ hself.create rfl (Node.fresh_ofText content)
  | createComment content => exact hleft ▸ hself.create rfl (Node.fresh_ofComment content)
  | append parent child => exact Tree.append_error (answer_error h) ▸ hself
  | appendElement parent name attributes => exact Tree.appendElement_error (answer_error h)
  | appendText parent content => exact Tree.appendText_error (answer_error h)
  | setAttribute id name value =>
    have hset : tree.setAttribute id name value = (.error e, after) := by
      rw [apply] at h
      generalize tree.setAttribute id name value = built at h
      obtain ⟨result, left⟩ := built
      cases result with
      | error e => cases h; rfl
      | ok => cases h
    exact Tree.setAttribute_error hset ▸ hself.intern name

namespace Tree

variable {tree after : Tree} {id p c : NodeId}

namespace Forest

variable (f : Forest tree tree.children)

include f

theorem exists_route_next (id : NodeId) : ∃ line,
    Route tree.nextElement? (tree.nextElement? id) line ∧
      ∀ a ∈ line, tree.contains a = true := by
  cases hp : tree.parent? id with
  | none =>
    refine ⟨[], ?_, fun _ hm => absurd hm List.not_mem_nil⟩
    rw [f.nextElement?_of_top hp]
    exact .stop
  | some p =>
    obtain ⟨front, back, hs⟩ := List.append_of_mem (f.parent.mp hp)
    have hk : tree.elementChildren p =
        (front ++ [id]).filter tree.isElement ++ back.filter tree.isElement := by
      rw [elementChildren, hs, ← List.filter_append, List.append_assoc, List.singleton_append]
    refine ⟨back.filter tree.isElement, ?_, fun a ha => ?_⟩
    · rw [f.nextElement?_of_children hs]
      exact (f.chain_elements p).route_next hk
    · refine contains_of_parent? (f.parent?_of_mem (p := p) ?_)
      rw [hk]
      exact List.mem_append_right _ ha

theorem exists_route_prev (id : NodeId) : ∃ line,
    Route tree.prevElement? (tree.prevElement? id) line ∧
      ∀ a ∈ line, tree.contains a = true := by
  cases hp : tree.parent? id with
  | none =>
    refine ⟨[], ?_, fun _ hm => absurd hm List.not_mem_nil⟩
    rw [f.prevElement?_of_top hp]
    exact .stop
  | some p =>
    obtain ⟨front, back, hs⟩ := List.append_of_mem (f.parent.mp hp)
    have hk : tree.elementChildren p =
        front.filter tree.isElement ++ (id :: back).filter tree.isElement := by
      rw [elementChildren, hs, List.filter_append]
    refine ⟨(front.filter tree.isElement).reverse, ?_, fun a ha => ?_⟩
    · rw [f.prevElement?_of_children hs]
      exact (f.chain_elements p).route_prev hk
    · refine contains_of_parent? (f.parent?_of_mem (p := p) ?_)
      rw [hk]
      exact List.mem_append_left _ (List.mem_reverse.mp ha)

theorem contains_of_prevElement? (h : tree.prevElement? id = some p) : tree.contains p = true := by
  obtain ⟨line, hr, hv⟩ := f.exists_route_prev id
  exact hv p (List.mem_of_head? (hr.head.trans h))

theorem contains_of_mem_elementsBefore (h : p ∈ tree.elementsBefore id) :
    tree.contains p = true := by
  obtain ⟨line, hr, hv⟩ := f.exists_route_prev id
  rw [elementsBefore, follow_of_route hr hv] at h
  exact hv p h

theorem contains_of_mem_elementsAfter (h : p ∈ tree.elementsAfter id) :
    tree.contains p = true := by
  obtain ⟨line, hr, hv⟩ := f.exists_route_next id
  rw [elementsAfter, follow_of_route hr hv] at h
  exact hv p h

theorem textBelow_leaf (h : ∀ c, tree.parent? c ≠ some id) (depth : Nat) :
    tree.textBelow depth id = "" := by
  cases depth with
  | zero => rfl
  | succ depth =>
    have hnone : tree.children id = [] :=
      List.eq_nil_iff_forall_not_mem.mpr fun c hm => h c (f.parent.mpr hm)
    rw [textBelow, hnone]
    rfl

theorem textBelow_succ {depth : Nat} (h : tree.size ≤ depth + (tree.ancestors id).length) :
    tree.textBelow (depth + 1) id = tree.textBelow depth id := by
  induction depth generalizing id with
  | zero =>
    refine f.textBelow_leaf (fun c hc => ?_) 1
    have hline := f.line_lt_size hc
    omega
  | succ depth ih =>
    rw [textBelow, textBelow]
    refine congrArg String.join (List.map_congr_left fun c hc => ?_)
    have hdeeper : tree.size ≤ depth + (tree.ancestors c).length := by
      rw [f.ancestors_of_parent? (f.parent.mpr hc), List.length_cons]
      omega
    rw [ih hdeeper]

end Forest

/-- Whatever is read of the nodes of a tree is read of them in another tree too, and every walk goes
the same way. -/
structure ReadsAlike (tree after : Tree) : Prop where
  node : ∀ id, tree.contains id = true → after.node? id = tree.node? id
  tagName : ∀ id, tree.contains id = true → after.tagName? id = tree.tagName? id
  ns : ∀ id, tree.contains id = true → after.namespace? id = tree.namespace? id
  value : ∀ id, tree.contains id = true → ∀ name, after.attribute? id name = tree.attribute? id name
  parent : after.parent? = tree.parent?
  firstChild : after.firstChild? = tree.firstChild?
  lastChild : after.lastChild? = tree.lastChild?
  prevSibling : after.prevSibling? = tree.prevSibling?
  nextSibling : after.nextSibling? = tree.nextSibling?
  children : after.children = tree.children
  ancestors : after.ancestors = tree.ancestors
  elementChildren : after.elementChildren = tree.elementChildren
  firstElementChild : after.firstElementChild? = tree.firstElementChild?
  nextElement : after.nextElement? = tree.nextElement?
  prevElement : after.prevElement? = tree.prevElement?
  elementChain : after.elementChain = tree.elementChain
  elementsBefore : after.elementsBefore = tree.elementsBefore
  elementsAfter : after.elementsAfter = tree.elementsAfter
  descendants : after.descendants = tree.descendants
  text : after.textContent = tree.textContent

namespace Kept

variable (h : tree.Kept after)

include h

theorem extends_tree : Extends after tree := by
  intro id
  cases hid : tree.contains id with
  | true => exact .inl (congrArg (Option.map Node.frame) (h.node id hid))
  | false =>
    have hnone : tree.node? id = none := by
      rw [← Option.not_isSome_iff_eq_none]
      exact Bool.eq_false_iff.mp hid
    cases hn : after.node? id with
    | none => exact .inl (by rw [hnone])
    | some node => exact .inr ⟨hnone, node, rfl, h.fresh id node hid hn⟩

theorem size_le : tree.size ≤ after.size := by
  by_contra hlt
  have hlast : tree.contains ⟨after.size⟩ = true := contains_iff.mpr (Nat.lt_of_not_le hlt)
  have hn := congrArg Option.isSome (h.node _ hlast)
  rw [show (tree.node? ⟨after.size⟩).isSome = true from hlast] at hn
  exact Nat.lt_irrefl _ (contains_iff.mp hn)

theorem contains_after (hid : tree.contains id = true) : after.contains id = true := by
  rw [contains, h.node id hid]
  exact hid

theorem element?_eq (hid : tree.contains id = true) : after.element? id = tree.element? id := by
  rw [element?, element?, h.node id hid]

theorem isElement_eq (hid : tree.contains id = true) : after.isElement id = tree.isElement id := by
  rw [isElement, isElement, h.element?_eq hid]

theorem filter_isElement {ids : List NodeId} (hv : ∀ id ∈ ids, tree.contains id = true) :
    ids.filter after.isElement = ids.filter tree.isElement :=
  List.filter_congr fun id hm => h.isElement_eq (hv id hm)

theorem follow_eq {next : NodeId → Option NodeId} {start : Option NodeId} {line : List NodeId}
    (hr : Route next start line) (hv : ∀ id ∈ line, tree.contains id = true) :
    follow next after.size start = follow next tree.size start :=
  (follow_of_route hr fun id hm => h.contains_after (hv id hm)).trans (follow_of_route hr hv).symm

section Walks

variable (f : Forest tree tree.children)

include f

theorem forest : Forest after tree.children := f.extend h.extends_tree

theorem children_eq : after.children = tree.children := (h.forest f).children_eq

theorem grown : Forest after after.children := (h.children_eq f).symm ▸ h.forest f

theorem ancestors_eq : after.ancestors = tree.ancestors := by
  obtain ⟨hparent, -⟩ := Forest.links_of_extends h.extends_tree
  funext id
  have hr := (h.forest f).route_ancestors id
  rw [hparent] at hr
  exact hr.unique (f.route_ancestors id)

theorem elementChildren_eq : after.elementChildren = tree.elementChildren := by
  funext p
  rw [elementChildren, elementChildren, h.children_eq f]
  exact h.filter_isElement fun _ hm => f.contains_kid hm

theorem firstElementChild?_eq : after.firstElementChild? = tree.firstElementChild? := by
  funext id
  rw [(h.grown f).firstElementChild?_eq, f.firstElementChild?_eq, h.elementChildren_eq f]

theorem nextElement?_eq : after.nextElement? = tree.nextElement? := by
  obtain ⟨hparent, -⟩ := Forest.links_of_extends h.extends_tree
  funext id
  cases hp : tree.parent? id with
  | none => rw [f.nextElement?_of_top hp, (h.grown f).nextElement?_of_top (hparent ▸ hp)]
  | some p =>
    obtain ⟨front, back, hs⟩ := List.append_of_mem (f.parent.mp hp)
    have hafter : after.children p = front ++ id :: back := (h.children_eq f) ▸ hs
    rw [f.nextElement?_of_children hs, (h.grown f).nextElement?_of_children hafter]
    refine congrArg List.head? (h.filter_isElement fun a ha => f.contains_kid (p := p) ?_)
    rw [hs]
    exact List.mem_append_right front (List.mem_cons_of_mem id ha)

theorem prevElement?_eq : after.prevElement? = tree.prevElement? := by
  obtain ⟨hparent, -⟩ := Forest.links_of_extends h.extends_tree
  funext id
  cases hp : tree.parent? id with
  | none => rw [f.prevElement?_of_top hp, (h.grown f).prevElement?_of_top (hparent ▸ hp)]
  | some p =>
    obtain ⟨front, back, hs⟩ := List.append_of_mem (f.parent.mp hp)
    have hafter : after.children p = front ++ id :: back := (h.children_eq f) ▸ hs
    rw [f.prevElement?_of_children hs, (h.grown f).prevElement?_of_children hafter]
    refine congrArg List.getLast? (h.filter_isElement fun a ha => f.contains_kid (p := p) ?_)
    rw [hs]
    exact List.mem_append_left _ ha

theorem elementChain_eq : after.elementChain = tree.elementChain := by
  funext id
  rw [elementChain, elementChain, h.nextElement?_eq f, h.firstElementChild?_eq f,
    f.firstElementChild?_eq]
  exact h.follow_eq (f.chain_elements id).route fun a ha =>
    Forest.contains_of_parent? (f.parent?_of_mem ha)

theorem elementsBefore_eq : after.elementsBefore = tree.elementsBefore := by
  funext id
  obtain ⟨line, hr, hv⟩ := f.exists_route_prev id
  rw [elementsBefore, elementsBefore, h.prevElement?_eq f]
  exact h.follow_eq hr hv

theorem elementsAfter_eq : after.elementsAfter = tree.elementsAfter := by
  funext id
  obtain ⟨line, hr, hv⟩ := f.exists_route_next id
  rw [elementsAfter, elementsAfter, h.nextElement?_eq f]
  exact h.follow_eq hr hv

theorem descendants_eq : after.descendants = tree.descendants := by
  funext scope
  refine f.induct_children (P := fun scope => after.descendants scope = tree.descendants scope)
    ?_ scope
  intro scope ih
  rw [(h.grown f).descendants_eq_flatMap, f.descendants_eq_flatMap, h.elementChildren_eq f]
  exact List.flatMap_congr fun c hc => by rw [ih c (f.parent?_of_mem hc)]

theorem textBelow_eq (depth : Nat) : after.textBelow depth = tree.textBelow depth := by
  induction depth with
  | zero => rfl
  | succ depth ih =>
    funext id
    rw [textBelow, textBelow, h.children_eq f, ih]
    refine congrArg String.join (List.map_congr_left fun c hc => ?_)
    rw [h.node c (f.contains_kid hc)]

theorem textContent_eq : after.textContent = tree.textContent := by
  funext id
  have hsize : after.size = tree.size ∨ after.size = tree.size + 1 := by
    have hle := h.size_le
    have hge := h.size
    omega
  rw [textContent, textContent, h.textBelow_eq f]
  rcases hsize with hs | hs
  · rw [hs]
  · rw [hs, f.textBelow_succ (Nat.le_add_right _ _)]

theorem contains_of_link {link : Tree → NodeId → Option NodeId}
    (hm : link ∈ [Tree.parent?, Tree.firstChild?, Tree.lastChild?, Tree.prevSibling?,
      Tree.nextSibling?]) {other : NodeId} (hl : link after id = some other) :
    tree.contains id = true ∧ tree.contains other = true := by
  have hsame : link after = link tree := by
    obtain ⟨hparent, hfirst, hlast, hprev, hnext⟩ := Forest.links_of_extends h.extends_tree
    simp only [List.mem_cons, List.not_mem_nil, or_false] at hm
    rcases hm with rfl | rfl | rfl | rfl | rfl
    exacts [hparent, hfirst, hlast, hprev, hnext]
  rw [hsame] at hl
  exact ⟨contains_of_linked hm hl, f.contains_of_link hm hl⟩

end Walks

section Names

variable (hr : tree.Reachable) (ha : after.names.Listed) (hid : tree.contains id = true)

include hr ha hid

theorem element_after {element : Element} (he : tree.element? id = some element) :
    after.element? id = some element ∧ ∃ writes origin,
      element.Records tree.names writes origin ∧ element.Records after.names writes origin := by
  obtain ⟨steps, rfl⟩ := hr
  have hrecords := records_grow steps
  refine ⟨(h.element?_eq hid).trans he, ?_⟩
  rcases rel_cases (hrecords.element id) with ⟨-, hnone⟩ | ⟨origin, found, -, hfound, hself⟩
  · cases he.symm.trans hnone
  · cases he.symm.trans hfound
    exact ⟨_, origin, hself, hself.mono hrecords.names ha h.names.numbers⟩

theorem tagName?_eq : after.tagName? id = tree.tagName? id := by
  cases he : tree.element? id with
  | none => rw [tagName?, tagName?, h.element?_eq hid, he]; rfl
  | some element =>
    obtain ⟨hback, _, _, hold, hnew⟩ := h.element_after hr ha hid he
    rw [tagName?_of_records hold he hr.retagged.names, tagName?_of_records hnew hback ha]

theorem namespace?_eq : after.namespace? id = tree.namespace? id := by
  cases he : tree.element? id with
  | none => rw [namespace?, namespace?, h.element?_eq hid, he]; rfl
  | some element =>
    obtain ⟨hback, _, _, hold, hnew⟩ := h.element_after hr ha hid he
    rw [namespace?_of_records hold he hr.retagged.names, namespace?_of_records hnew hback ha]

/-- A name that only now has a number is the name of no attribute. -/
theorem attribute?_eq (name : String) : after.attribute? id name = tree.attribute? id name := by
  cases he : tree.element? id with
  | none => rw [attribute?_eq_bind, attribute?_eq_bind, h.element?_eq hid, he]; rfl
  | some element =>
    obtain ⟨hback, _, _, hold, hnew⟩ := h.element_after hr ha hid he
    rw [attribute?_of_records hold he, attribute?_of_records hnew hback]

end Names

theorem readsAlike (hr : tree.Reachable) (ha : after.names.Listed) : tree.ReadsAlike after := by
  have f := hr.forest
  obtain ⟨hparent, hfirst, hlast, hprev, hnext⟩ := Forest.links_of_extends h.extends_tree
  constructor
  case node => exact h.node
  case tagName => exact fun _ => h.tagName?_eq hr ha
  case ns => exact fun _ => h.namespace?_eq hr ha
  case value => exact fun _ => h.attribute?_eq hr ha
  case parent => exact hparent
  case firstChild => exact hfirst
  case lastChild => exact hlast
  case prevSibling => exact hprev
  case nextSibling => exact hnext
  case children => exact h.children_eq f
  case ancestors => exact h.ancestors_eq f
  case elementChildren => exact h.elementChildren_eq f
  case firstElementChild => exact h.firstElementChild?_eq f
  case nextElement => exact h.nextElement?_eq f
  case prevElement => exact h.prevElement?_eq f
  case elementChain => exact h.elementChain_eq f
  case elementsBefore => exact h.elementsBefore_eq f
  case elementsAfter => exact h.elementsAfter_eq f
  case descendants => exact h.descendants_eq f
  case text => exact h.textContent_eq f

end Kept

end Tree

end TreeQuery
