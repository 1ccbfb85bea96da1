import TreeQuery.Proofs.Tree.Traversal

/-! The element children of a node and the elements beside an element.
They are found by three walks over the raw links, down and forward from the parent, forward from a
sibling and back from one, each of which passes over texts and comments. All three follow one list,
and all of them end, wherever they start. -/
namespace TreeQuery

namespace Tree

variable {tree : Tree} {id p left right : NodeId}

/-- The search for the element before a node among its siblings. -/
abbrev PrevElement (tree : Tree) (id : NodeId) (result : Option NodeId) : Prop :=
  Sought tree.prevSibling? tree.isElement (tree.prevSibling? id) result

/-- The elements met one after another, each of them sought from the one before. -/
inductive Hops (tree : Tree) : Option NodeId → List NodeId → Prop where
  | stop : Hops tree none []
  | move {id next rest} : tree.NextElement id next → Hops tree next rest →
      Hops tree (some id) (id :: rest)

/-- The whole walk along the element children of a node. -/
def Chains (tree : Tree) (id : NodeId) (listing : List NodeId) : Prop :=
  ∃ first, tree.FirstElement id first ∧ tree.Hops first listing

theorem Hops.unique {start : Option NodeId} {listing others : List NodeId}
    (h : tree.Hops start listing) (k : tree.Hops start others) : listing = others := by
  induction h generalizing others with
  | stop =>
    cases k
    rfl
  | move hn _ ih =>
    cases k with
    | move kn k =>
      cases hn.unique kn
      rw [ih k]

theorem Chains.unique {listing others : List NodeId} (h : tree.Chains id listing)
    (k : tree.Chains id others) : listing = others := by
  obtain ⟨first, hs, h⟩ := h
  obtain ⟨other, ks, k⟩ := k
  cases hs.unique ks
  exact h.unique k

namespace Forest

variable (f : Forest tree tree.children)

include f

theorem prevElement (id : NodeId) : tree.PrevElement id (tree.prevElement? id) := by
  rw [PrevElement]
  cases hp : tree.parent? id with
  | none =>
    rw [f.prevElement?_of_top hp, (f.alone hp).1]
    exact .stop
  | some p =>
    obtain ⟨front, back, hs⟩ := List.append_of_mem (f.parent.mp hp)
    rw [f.prevElement?_of_children hs, ((f.chain p).along hs).1, List.getLast?_filter]
    exact ((f.chain p).route_prev hs).sought tree.isElement

theorem hops {start : Option NodeId} {listing : List NodeId}
    (h : Route tree.nextElement? start listing) : tree.Hops start listing := by
  induction h with
  | stop => exact .stop
  | @move id _ _ ih => exact .move (f.nextElement id) ih

theorem elementChain_eq (id : NodeId) : tree.elementChain id = tree.elementChildren id := by
  rw [elementChain, f.firstElementChild?_eq]
  exact follow_of_route (f.chain_elements id).route fun c hc =>
    contains_of_parent? (f.parent?_of_mem hc)

theorem chains (id : NodeId) : tree.Chains id (tree.elementChain id) := by
  refine ⟨tree.firstElementChild? id, f.firstElement id, ?_⟩
  rw [f.elementChain_eq, f.firstElementChild?_eq]
  exact f.hops (f.chain_elements id).route

theorem nextElement?_eq_some_iff (he : tree.isElement left = true) :
    tree.nextElement? left = some right ↔ tree.Adjacent left right := by
  constructor
  · intro h
    cases hp : tree.parent? left with
    | none =>
      rw [f.nextElement?_of_top hp] at h
      exact absurd h nofun
    | some p =>
      have hm : left ∈ tree.elementChildren p := f.mem_elementChildren.mpr ⟨hp, he⟩
      obtain ⟨front, back, hs⟩ := ((f.chain_elements p).next_eq_some_iff hm).mp h
      exact ⟨p, front, back, hs⟩
  · rintro ⟨p, front, back, hs⟩
    have hm : left ∈ tree.elementChildren p := by simp [hs]
    exact ((f.chain_elements p).next_eq_some_iff hm).mpr ⟨front, back, hs⟩

end Forest

/-- From a handle every walk to children and siblings ends, with the result that the bounded walk
gives, and the element children are the children that are elements. -/
structure SiblingWalks (tree : Tree) (id : NodeId) : Prop where
  children : ∀ others, Route tree.nextSibling? (tree.firstChild? id) others ↔
    others = tree.children id
  first : ∀ result, tree.FirstElement id result ↔ result = tree.firstElementChild? id
  next : ∀ result, tree.NextElement id result ↔ result = tree.nextElement? id
  prev : ∀ result, tree.PrevElement id result ↔ result = tree.prevElement? id
  chain : ∀ others, tree.Chains id others ↔ others = tree.elementChain id
  same : tree.elementChain id = tree.elementChildren id
  elements : tree.elementChildren id = (tree.children id).filter tree.isElement

theorem Forest.siblingWalks (f : Forest tree tree.children) (id : NodeId) :
    tree.SiblingWalks id := by
  constructor
  case children =>
    have hr : Route tree.nextSibling? (tree.firstChild? id) (tree.children id) := by
      rw [f.first]
      exact (f.chain id).route
    exact fun others => ⟨fun h => h.unique hr, fun h => h ▸ hr⟩
  case first =>
    exact fun result => ⟨fun h => h.unique (f.firstElement id), fun h => h ▸ f.firstElement id⟩
  case next =>
    exact fun result => ⟨fun h => h.unique (f.nextElement id), fun h => h ▸ f.nextElement id⟩
  case prev =>
    exact fun result => ⟨fun h => h.unique (f.prevElement id), fun h => h ▸ f.prevElement id⟩
  case chain => exact fun others => ⟨fun h => h.unique (f.chains id), fun h => h ▸ f.chains id⟩
  case same => exact f.elementChain_eq id
  case elements => rfl

/-- The walks to children and siblings end from every handle, and those along elements follow one
list: of two elements the second comes next exactly if the first comes right before it, which is to
say that they stand side by side among the element children of one node. -/
theorem Reachable.sibling_walks_agree (h : tree.Reachable) :
    (∀ id, tree.SiblingWalks id) ∧
      ∀ left right, tree.isElement left = true → tree.isElement right = true →
        (tree.nextElement? left = some right ↔ tree.prevElement? right = some left) ∧
          (tree.nextElement? left = some right ↔ ∃ p front back,
            tree.elementChildren p = front ++ left :: right :: back) := by
  have f := h.forest
  refine ⟨f.siblingWalks, fun left right hl hr => ?_⟩
  have hnext : tree.nextElement? left = some right ↔ tree.Adjacent left right :=
    f.nextElement?_eq_some_iff hl
  have hprev : tree.prevElement? right = some left ↔ tree.Adjacent left right :=
    f.prevElement?_eq_some_iff hr
  exact ⟨hnext.trans hprev.symm, hnext⟩

/-- Two elements among texts and a comment, and walks from a text and from a handle that no node
has. -/
theorem sibling_walks_among_texts :
    let tree := Tree.grow [.appendText .root "text", .appendElement .root "a" [],
      .createComment "comment", .append .root ⟨3⟩, .appendText .root "text",
      .appendElement .root "b" []]
    tree.Reachable ∧ tree.Chains .root [⟨2⟩, ⟨5⟩] ∧ tree.PrevElement ⟨4⟩ (some ⟨2⟩) ∧
      tree.Chains .missing [] ∧ tree.isElement ⟨2⟩ = true ∧ tree.isElement ⟨5⟩ = true ∧
      tree.prevElement? ⟨5⟩ = some ⟨2⟩ := by
  intro tree
  have hr : tree.Reachable := ⟨_, rfl⟩
  obtain ⟨hwalks, hsides⟩ := hr.sibling_walks_agree
  refine ⟨hr, ((hwalks .root).chain _).mpr rfl, ((hwalks ⟨4⟩).prev _).mpr rfl,
    ((hwalks .missing).chain _).mpr rfl, rfl, rfl, ?_⟩
  exact (hsides ⟨2⟩ ⟨5⟩ rfl rfl).1.mp rfl

end Tree

end TreeQuery
