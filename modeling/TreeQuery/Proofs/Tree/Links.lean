import TreeQuery.Proofs.Tree.Kin

/-! What the links of a reachable tree say about one another.
Each link is written at its own time and place; together they describe one ordered forest. -/
namespace TreeQuery

namespace Tree

variable {tree : Tree} {id other p c left right : NodeId}

/-- The five links agree: siblings stand in one chain from the first child to the last one, and
parents lead upward from everywhere without a cycle. -/
structure Linked (tree : Tree) : Prop where
  inside : ∀ link ∈ [Tree.parent?, Tree.firstChild?, Tree.lastChild?, Tree.prevSibling?,
    Tree.nextSibling?], ∀ id other, link tree id = some other → tree.contains other = true
  walk : ∀ p, Route tree.nextSibling? (tree.firstChild? p) (tree.children p)
  once : ∀ p, (tree.children p).Nodup
  visited : ∀ p c, c ∈ tree.children p ↔ tree.parent? c = some p
  last : ∀ p, (tree.children p).getLast? = tree.lastChild? p
  inverse : ∀ left right,
    tree.prevSibling? right = some left ↔ tree.nextSibling? left = some right
  first : ∀ p c, tree.firstChild? p = some c → tree.prevSibling? c = none
  ends : ∀ p, tree.firstChild? p = none ↔ tree.lastChild? p = none
  alone : ∀ c, tree.parent? c = none → tree.prevSibling? c = none ∧ tree.nextSibling? c = none
  acyclic : ∀ id, ¬ tree.Below id id
  upward : ∀ id, Route tree.parent? (tree.parent? id) (tree.ancestors id)
  ground : tree.contains .root = true
  top : tree.parent? .root = none
  document : ∀ id node, tree.node? id = some node → (node.content = .document ↔ id = .root)
  leaf : ∀ p node content, tree.node? p = some node →
    (node.content = .text content ∨ node.content = .comment content) →
    tree.firstChild? p = none ∧ ∀ c, tree.parent? c ≠ some p

theorem contains_of_linked {link : Tree → NodeId → Option NodeId}
    (hm : link ∈ [Tree.parent?, Tree.firstChild?, Tree.lastChild?, Tree.prevSibling?,
      Tree.nextSibling?]) (h : link tree id = some other) : tree.contains id = true := by
  simp only [List.mem_cons, List.not_mem_nil, or_false] at hm
  rcases hm with rfl | rfl | rfl | rfl | rfl <;>
  · obtain ⟨node, hn, -⟩ := Option.bind_eq_some_iff.mp h
    exact contains_of_node? hn

namespace Forest

variable (f : Forest tree tree.children)

include f

theorem parent?_of_sibling (h : tree.prevSibling? c ≠ none ∨ tree.nextSibling? c ≠ none) :
    ∃ p, tree.parent? c = some p := by
  rw [← Option.ne_none_iff_exists']
  intro hp
  exact h.elim (· (f.alone hp).1) (· (f.alone hp).2)

theorem prevSibling?_eq_some_iff :
    tree.prevSibling? right = some left ↔
      ∃ p front back, tree.children p = front ++ left :: right :: back := by
  constructor
  · intro h
    obtain ⟨p, hp⟩ := f.parent?_of_sibling (.inl (h ▸ Option.some_ne_none left))
    exact ⟨p, ((f.chain p).prev_eq_some_iff (f.parent.mp hp)).mp h⟩
  · rintro ⟨p, front, back, hs⟩
    have hm : right ∈ tree.children p := by simp [hs]
    exact ((f.chain p).prev_eq_some_iff hm).mpr ⟨front, back, hs⟩

theorem nextSibling?_eq_some_iff :
    tree.nextSibling? left = some right ↔
      ∃ p front back, tree.children p = front ++ left :: right :: back := by
  constructor
  · intro h
    obtain ⟨p, hp⟩ := f.parent?_of_sibling (.inr (h ▸ Option.some_ne_none right))
    exact ⟨p, ((f.chain p).next_eq_some_iff (f.parent.mp hp)).mp h⟩
  · rintro ⟨p, front, back, hs⟩
    have hm : left ∈ tree.children p := by simp [hs]
    exact ((f.chain p).next_eq_some_iff hm).mpr ⟨front, back, hs⟩

theorem prevSibling?_of_first (h : tree.firstChild? p = some c) : tree.prevSibling? c = none := by
  rw [f.first] at h
  obtain ⟨back, hs⟩ := List.head?_eq_some_iff.mp h
  have hfront : tree.children p = [] ++ c :: back := hs
  exact ((f.chain p).along hfront).1

theorem contains_of_link {link : Tree → NodeId → Option NodeId}
    (hm : link ∈ [Tree.parent?, Tree.firstChild?, Tree.lastChild?, Tree.prevSibling?,
      Tree.nextSibling?]) (h : link tree id = some other) : tree.contains other = true := by
  simp only [List.mem_cons, List.not_mem_nil, or_false] at hm
  rcases hm with rfl | rfl | rfl | rfl | rfl
  · exact f.contains_of_holds h
  · rw [f.first] at h
    exact f.contains_kid (List.mem_of_head? h)
  · rw [f.last] at h
    exact f.contains_kid (List.mem_of_getLast? h)
  · obtain ⟨p, front, back, hs⟩ := f.prevSibling?_eq_some_iff.mp h
    exact f.contains_kid (p := p) (by simp [hs])
  · obtain ⟨p, front, back, hs⟩ := f.nextSibling?_eq_some_iff.mp h
    exact f.contains_kid (p := p) (by simp [hs])

theorem not_parent_of_leaf {node : Node} (hn : tree.node? p = some node)
    (hl : node.isContainer = false) : tree.parent? c ≠ some p := by
  intro hp
  obtain ⟨holder, hh, hc⟩ := f.holder hp
  cases hn.symm.trans hh
  exact absurd (hl.symm.trans hc) nofun

theorem firstChild?_eq_none_iff : tree.firstChild? p = none ↔ ∀ c, tree.parent? c ≠ some p := by
  rw [f.first, List.head?_eq_none_iff, List.eq_nil_iff_forall_not_mem]
  exact forall_congr' fun c => not_congr f.parent.symm

end Forest

/-- Whatever steps a tree was built by, its links describe an ordered forest. -/
theorem Reachable.linked (h : tree.Reachable) : tree.Linked := by
  have f := h.forest
  constructor
  case inside => exact fun _ hm _ _ hl => f.contains_of_link hm hl
  case walk =>
    intro p
    rw [f.first]
    exact (f.chain p).route
  case once => exact fun p => (f.chain p).route.nodup
  case visited => exact fun _ _ => f.parent.symm
  case last => exact fun p => (f.last p).symm
  case inverse => exact fun _ _ => f.prevSibling?_eq_some_iff.trans f.nextSibling?_eq_some_iff.symm
  case first => exact fun _ _ => f.prevSibling?_of_first
  case ends =>
    intro p
    rw [f.first, f.last, List.head?_eq_none_iff, List.getLast?_eq_none_iff]
  case alone => exact fun _ => f.alone
  case acyclic => exact f.not_below_self
  case upward => exact f.route_ancestors
  case ground => exact f.ground
  case top => exact f.top
  case document => exact fun _ _ => f.document
  case leaf =>
    intro p node content hn hc
    have hl : node.isContainer = false := by
      rcases hc with hc | hc <;> rw [Node.isContainer, hc]
    have hp : ∀ c, tree.parent? c ≠ some p := fun _ => f.not_parent_of_leaf hn hl
    exact ⟨f.firstChild?_eq_none_iff.mpr hp, hp⟩

/-- A subtree built apart and joined later, after an attempt to close a cycle. -/
theorem linked_of_joined :
    let tree := Tree.grow [.createElement "a", .createElement "b", .append ⟨1⟩ ⟨2⟩,
      .append ⟨2⟩ ⟨1⟩, .appendText .root "text", .append .root ⟨1⟩]
    tree.Reachable ∧ tree.Linked := by
  intro tree
  have hr : tree.Reachable := ⟨_, rfl⟩
  exact ⟨hr, hr.linked⟩

end Tree

end TreeQuery
