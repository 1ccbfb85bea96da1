import Mathlib.Data.List.Forall2
import TreeQuery.Proofs.Tree.Kin
import TreeQuery.Proofs.Tree.Names

/-! Trees built by the same steps, with other names for the elements.
The tables of two such trees give out different numbers. Node by node, the trees have the same links
and the same attributes, and a tag of one is what the tag of the other is changed to. A tree goes
with itself in this way, each of its names unchanged. -/
namespace TreeQuery

theorem rel_map {α β γ δ : Type} {R : α → β → Prop} {S : γ → δ → Prop} {f : α → γ} {g : β → δ}
    {a : Option α} {b : Option β} (h : Option.Rel R a b) (hs : ∀ a b, R a b → S (f a) (g b)) :
    Option.Rel S (a.map f) (b.map g) := by
  cases h with
  | none => exact .none
  | some h => exact .some (hs _ _ h)

theorem rel_cases {α β : Type} {R : α → β → Prop} {a : Option α} {b : Option β}
    (h : Option.Rel R a b) :
    a = none ∧ b = none ∨ ∃ front back, a = some front ∧ b = some back ∧ R front back := by
  cases h with
  | none => exact .inl ⟨rfl, rfl⟩
  | some h => exact .inr ⟨_, _, rfl, rfl, h⟩

theorem rel_imp {α β : Type} {R S : α → β → Prop} {a : Option α} {b : Option β}
    (h : Option.Rel R a b) (hs : ∀ a b, R a b → S a b) : Option.Rel S a b := by
  cases h with
  | none => exact .none
  | some h => exact .some (hs _ _ h)

namespace Tree

variable {tree other : Tree}

/-- Two trees with the same links, and with elements at the same places. -/
structure SameShape (tree other : Tree) : Prop where
  size : other.size = tree.size
  parent : other.parent? = tree.parent?
  firstChild : other.firstChild? = tree.firstChild?
  prevSibling : other.prevSibling? = tree.prevSibling?
  nextSibling : other.nextSibling? = tree.nextSibling?
  element : other.isElement = tree.isElement

namespace SameShape

theorem trans {last : Tree} (h : tree.SameShape other) (k : other.SameShape last) :
    tree.SameShape last :=
  ⟨k.size.trans h.size, k.parent.trans h.parent, k.firstChild.trans h.firstChild,
    k.prevSibling.trans h.prevSibling, k.nextSibling.trans h.nextSibling,
    k.element.trans h.element⟩

variable (h : tree.SameShape other)

include h

theorem ancestors_eq : other.ancestors = tree.ancestors := by
  funext id
  rw [ancestors, ancestors, h.size, h.parent]

theorem elementChildren_eq : other.elementChildren = tree.elementChildren := by
  funext id
  rw [elementChildren, elementChildren, children, children, h.size, h.firstChild, h.nextSibling,
    h.element]

theorem firstElementChild?_eq : other.firstElementChild? = tree.firstElementChild? := by
  funext id
  rw [firstElementChild?, firstElementChild?, h.size, h.firstChild, h.nextSibling, h.element]

theorem nextElement?_eq : other.nextElement? = tree.nextElement? := by
  funext id
  rw [nextElement?, nextElement?, h.size, h.nextSibling, h.element]

theorem prevElement?_eq : other.prevElement? = tree.prevElement? := by
  funext id
  rw [prevElement?, prevElement?, h.size, h.prevSibling, h.element]

theorem elementsBefore_eq : other.elementsBefore = tree.elementsBefore := by
  funext id
  rw [elementsBefore, elementsBefore, h.size, h.prevElement?_eq]

theorem elementPast?_eq (scope : NodeId) (bound : Nat) (id : NodeId) :
    other.elementPast? scope bound id = tree.elementPast? scope bound id := by
  induction bound generalizing id with
  | zero => rfl
  | succ bound ih => simp only [elementPast?, h.nextElement?_eq, h.parent, ih]

theorem descendants_eq : other.descendants = tree.descendants := by
  have hsuccessor : other.successor? = tree.successor? := by
    funext scope id
    rw [successor?, successor?, h.firstElementChild?_eq, h.elementPast?_eq, h.size]
  funext scope
  rw [descendants, descendants, hsuccessor, h.firstElementChild?_eq, h.size]

theorem carries : tree.Carries other fun _ => True := by
  constructor
  case parent => exact fun _ hp => ⟨h.parent ▸ hp, trivial⟩
  case adjacent =>
    rintro left right - ⟨p, front, back, hs⟩
    exact ⟨⟨p, front, back, h.elementChildren_eq ▸ hs⟩, trivial⟩
  case earlier =>
    rintro left right - ⟨p, front, middle, back, hs⟩
    exact ⟨⟨p, front, middle, back, h.elementChildren_eq ▸ hs⟩, trivial⟩

end SameShape

end Tree

theorem QualifiedName.eq_plain_iff {name : QualifiedName} {number : NameId} (h : name.ns = none) :
    name = { localName := number } ↔ name.localName = number := by
  obtain ⟨ns, localName⟩ := name
  subst h
  simp

section Names

variable (rename : String → String) (names others : NameTable)

/-- Two numbers, one for a name and one for what this name is changed to. -/
def NameTable.Renames (front back : NameId) : Prop :=
  ∃ name, names.lookup name = some front ∧ others.lookup (rename name) = some back

/-- Two attributes without namespaces, with the same name and the same value. -/
structure Attribute.Same (front back : Attribute) : Prop where
  plain : front.name.ns = none ∧ back.name.ns = none
  name : NameTable.Renames id names others front.name.localName back.name.localName
  value : back.value = front.value

structure Element.Retagged (front back : Element) : Prop where
  tag : NameTable.Renames rename names others front.name.localName back.name.localName
  attributes : List.Forall₂ (Attribute.Same names others) front.attributes back.attributes

inductive NodeContent.Retagged : NodeContent → NodeContent → Prop
  | document : Retagged .document .document
  | element {front back : Element} (h : Element.Retagged rename names others front back) :
      Retagged (.element front) (.element back)
  | text (content : String) : Retagged (.text content) (.text content)
  | comment (content : String) : Retagged (.comment content) (.comment content)

inductive Node.Retagged : Node → Node → Prop
  | intro {front back : NodeContent} (h : NodeContent.Retagged rename names others front back)
      (parent firstChild lastChild prevSibling nextSibling : Option NodeId) :
      Retagged ⟨front, parent, firstChild, lastChild, prevSibling, nextSibling⟩
        ⟨back, parent, firstChild, lastChild, prevSibling, nextSibling⟩

end Names

/-- Two trees that correspond node by node. -/
structure Tree.Retagged (rename : String → String) (tree other : Tree) : Prop where
  names : tree.names.Listed
  others : other.names.Listed
  size : other.size = tree.size
  node : ∀ id, Option.Rel (Node.Retagged rename tree.names other.names) (tree.node? id)
    (other.node? id)

def Built.Retagged (rename : String → String) {α : Type} (front back : Built α) : Prop :=
  back.1 = front.1 ∧ front.2.Retagged rename back.2

section Numbers

variable {rename : String → String} {names others next after : NameTable} {key : String}

theorem NameTable.Renames.mono {front back : NameId} (h : Renames rename names others front back)
    (hn : names.Keeps next) (ho : others.Keeps after) : Renames rename next after front back := by
  obtain ⟨name, hf, hb⟩ := h
  exact ⟨name, hn hf, ho hb⟩

theorem NameTable.Renames.lookup_iff {front back : NameId} (h : Renames id names others front back)
    (hn : names.Listed) (ho : others.Listed) :
    names.lookup key = some front ↔ others.lookup key = some back := by
  obtain ⟨name, hf, hb⟩ := h
  constructor
  · intro hk
    cases hn.lookup_inj hf hk
    exact hb
  · intro hk
    cases ho.lookup_inj hb hk
    exact hf

theorem Attribute.Same.mono {front back : Attribute} (h : Same names others front back)
    (hn : names.Keeps next) (ho : others.Keeps after) : Same next after front back :=
  ⟨h.plain, h.name.mono hn ho, h.value⟩

theorem Element.Retagged.mono {front back : Element} (h : Retagged rename names others front back)
    (hn : names.Keeps next) (ho : others.Keeps after) : Retagged rename next after front back :=
  ⟨h.tag.mono hn ho, h.attributes.imp fun _ _ ha => ha.mono hn ho⟩

theorem Node.Retagged.mono {front back : Node} (h : Retagged rename names others front back)
    (hn : names.Keeps next) (ho : others.Keeps after) : Retagged rename next after front back := by
  obtain ⟨hc, parent, firstChild, lastChild, prevSibling, nextSibling⟩ := h
  refine .intro ?_ parent firstChild lastChild prevSibling nextSibling
  cases hc with
  | document => exact .document
  | element he => exact .element (he.mono hn ho)
  | text content => exact .text content
  | comment content => exact .comment content

theorem Node.Retagged.isContainer_eq {front back : Node}
    (h : Retagged rename names others front back) : back.isContainer = front.isContainer := by
  obtain ⟨hc⟩ := h
  cases hc <;> rfl

theorem Node.Retagged.parent_eq {front back : Node}
    (h : Retagged rename names others front back) : back.parent = front.parent := by
  cases h
  rfl

theorem Node.Retagged.element? {front back : Node} (h : Retagged rename names others front back) :
    Option.Rel (Element.Retagged rename names others) front.element? back.element? := by
  obtain ⟨hc⟩ := h
  cases hc with
  | document => exact .none
  | element he => exact .some he
  | text content => exact .none
  | comment content => exact .none

section Set

variable {i j : NameId} (hn : names.Listed) (ho : others.Listed)
  (hi : names.lookup key = some i) (hj : others.lookup key = some j)

include hn ho hi hj

theorem Attribute.Same.name_iff {front back : Attribute} (h : Same names others front back) :
    front.name = { localName := i } ↔ back.name = { localName := j } := by
  have hlocal : names.lookup key = some front.name.localName ↔
      others.lookup key = some back.name.localName := h.name.lookup_iff hn ho
  rw [hi, hj, Option.some_inj, Option.some_inj] at hlocal
  rw [QualifiedName.eq_plain_iff h.plain.1, QualifiedName.eq_plain_iff h.plain.2, eq_comm, hlocal,
    eq_comm]

theorem setAttribute_same {front back : List Attribute} (value : String)
    (h : List.Forall₂ (Attribute.Same names others) front back) :
    List.Forall₂ (Attribute.Same names others) (setAttribute { localName := i } value front)
      (setAttribute { localName := j } value back) := by
  have hnew : Attribute.Same names others ⟨{ localName := i }, value⟩ ⟨{ localName := j }, value⟩ :=
    ⟨⟨rfl, rfl⟩, ⟨key, hi, hj⟩, rfl⟩
  induction h with
  | nil => exact .cons hnew .nil
  | @cons a b front back ha hrest ih =>
    have hname := ha.name_iff hn ho hi hj
    rw [setAttribute, setAttribute]
    by_cases he : a.name = { localName := i }
    · rw [if_pos he, if_pos (hname.mp he)]
      exact .cons hnew hrest
    · rw [if_neg he, if_neg (mt hname.mpr he)]
      exact .cons ha ih

theorem Node.Retagged.setAttribute? {front back : Node} (value : String)
    (h : Retagged rename names others front back) :
    Option.Rel (Retagged rename names others) (front.setAttribute? { localName := i } value)
      (back.setAttribute? { localName := j } value) := by
  obtain ⟨hc, parent, firstChild, lastChild, prevSibling, nextSibling⟩ := h
  cases hc with
  | document => exact .none
  | @element front back he =>
    have hset : Element.Retagged rename names others (front.set { localName := i } value)
        (back.set { localName := j } value) :=
      ⟨he.tag, setAttribute_same hn ho hi hj value he.attributes⟩
    exact .some (.intro (.element hset) parent firstChild lastChild prevSibling nextSibling)
  | text content => exact .none
  | comment content => exact .none

end Set

end Numbers

namespace Tree.Retagged

variable {rename : String → String} {tree other : Tree} (h : tree.Retagged rename other)

include h

theorem intern (front back : String) :
    (tree.intern front).2.Retagged rename (other.intern back).2 := by
  refine ⟨h.names.intern front, h.others.intern back, h.size, fun id => rel_imp (h.node id) ?_⟩
  exact fun _ _ hn => hn.mono (tree.names.keeps_intern front) (other.names.keeps_intern back)

theorem create {node mirror : Node}
    (hn : Node.Retagged rename tree.names other.names node mirror) :
    Built.Retagged rename (tree.create node) (other.create mirror) := by
  rw [Tree.create, Tree.create, h.size]
  cases NodeId.ofIndex? tree.size with
  | none => exact ⟨rfl, h⟩
  | some id =>
    refine ⟨rfl, h.names, h.others, ?_, fun id => ?_⟩
    · exact (Array.size_push _).trans ((congrArg (· + 1) h.size).trans (Array.size_push _).symm)
    · rw [node?_push, node?_push, h.size]
      by_cases hi : id.index = tree.size
      · rw [if_pos hi, if_pos hi]
        exact .some hn
      · rw [if_neg hi, if_neg hi]
        exact h.node id

theorem createElement (name : String) :
    Built.Retagged rename (tree.createElement name) (other.createElement (rename name)) := by
  refine (h.intern name (rename name)).create (.intro (.element ⟨?_, .nil⟩) _ _ _ _ _)
  exact ⟨name, tree.names.lookup_interned name, other.names.lookup_interned (rename name)⟩

theorem createElementIn (ns name : String) :
    Built.Retagged rename (tree.createElementIn ns name)
      (other.createElementIn ns (rename name)) := by
  refine ((h.intern ns ns).intern name (rename name)).create
    (.intro (.element ⟨?_, .nil⟩) _ _ _ _ _)
  exact ⟨name, NameTable.lookup_interned _ name, NameTable.lookup_interned _ (rename name)⟩

theorem createText (content : String) :
    Built.Retagged rename (tree.createText content) (other.createText content) :=
  h.create (.intro (.text content) _ _ _ _ _)

theorem createComment (content : String) :
    Built.Retagged rename (tree.createComment content) (other.createComment content) :=
  h.create (.intro (.comment content) _ _ _ _ _)

theorem link_eq {link : Node → Option NodeId}
    (hl : ∀ front back, Node.Retagged rename tree.names other.names front back →
      link back = link front) (id : NodeId) :
    (other.node? id).bind link = (tree.node? id).bind link := by
  rcases rel_cases (h.node id) with ⟨hf, hb⟩ | ⟨front, back, hf, hb, hn⟩
  · rw [hf, hb]
  · rw [hf, hb]
    exact hl front back hn

theorem lastChild?_eq (id : NodeId) : other.lastChild? id = tree.lastChild? id :=
  h.link_eq (fun _ _ hn => by cases hn; rfl) id

theorem element? (id : NodeId) :
    Option.Rel (Element.Retagged rename tree.names other.names) (tree.element? id)
      (other.element? id) := by
  rw [Tree.element?, Tree.element?]
  rcases rel_cases (h.node id) with ⟨hf, hb⟩ | ⟨front, back, hf, hb, hn⟩
  · rw [hf, hb]
    exact .none
  · rw [hf, hb]
    exact hn.element?

theorem isElement_eq (id : NodeId) : other.isElement id = tree.isElement id := by
  rw [isElement, isElement]
  rcases rel_cases (h.element? id) with ⟨hf, hb⟩ | ⟨front, back, hf, hb, -⟩
  · rw [hf, hb]
  · rw [hf, hb, Option.isSome_some, Option.isSome_some]

theorem sameShape : tree.SameShape other := by
  constructor
  case size => exact h.size
  case parent => exact funext (h.link_eq fun _ _ hn => by cases hn; rfl)
  case firstChild => exact funext (h.link_eq fun _ _ hn => by cases hn; rfl)
  case prevSibling => exact funext (h.link_eq fun _ _ hn => by cases hn; rfl)
  case nextSibling => exact funext (h.link_eq fun _ _ hn => by cases hn; rfl)
  case element => exact funext h.isElement_eq

theorem checkAppend_eq (parent child : NodeId) :
    other.checkAppend parent child = tree.checkAppend parent child := by
  rw [checkAppend, checkAppend, h.sameShape.ancestors_eq]
  rcases rel_cases (h.node parent) with ⟨hf, hb⟩ | ⟨holder, mirror, hf, hb, hp⟩
  · rw [hf, hb]
  · rcases rel_cases (h.node child) with ⟨hcf, hcb⟩ | ⟨front, back, hcf, hcb, hc⟩
    · simp only [hf, hb, hcf, hcb, hp.isContainer_eq]
    · simp only [hf, hb, hcf, hcb, hp.isContainer_eq, hc.parent_eq]

theorem link (parent child : NodeId) :
    (tree.link parent child).Retagged rename (other.link parent child) := by
  refine ⟨(tree.names_link parent child).symm ▸ h.names,
    (other.names_link parent child).symm ▸ h.others, ?_, fun id => ?_⟩
  · rw [size_link, size_link, h.size]
  · rw [names_link, names_link, node?_link, node?_link]
    refine rel_map (h.node id) fun front back hn => ?_
    obtain ⟨hc⟩ := hn
    simp only [relinked, h.lastChild?_eq]
    exact .intro hc _ _ _ _ _

theorem append (parent child : NodeId) :
    Built.Retagged rename (tree.append parent child) (other.append parent child) := by
  rw [Tree.append, Tree.append, h.checkAppend_eq]
  cases tree.checkAppend parent child with
  | error e => exact ⟨rfl, h⟩
  | ok => exact ⟨rfl, h.link parent child⟩

theorem modify (id : NodeId) {node mirror : Node}
    (hn : Node.Retagged rename tree.names other.names node mirror) :
    (tree.modify id fun _ => node).Retagged rename (other.modify id fun _ => mirror) := by
  refine ⟨h.names, h.others, ?_, fun place => ?_⟩
  · rw [size_modify, size_modify, h.size]
  · rw [node?_modify, node?_modify]
    by_cases hi : id = place
    · rw [if_pos hi, if_pos hi]
      exact rel_map (h.node place) fun _ _ _ => hn
    · rw [if_neg hi, if_neg hi]
      exact h.node place

theorem setQualified {key : String} {i j : NameId} (hi : tree.names.lookup key = some i)
    (hj : other.names.lookup key = some j) (id : NodeId) (value : String) :
    Built.Retagged rename (tree.setQualified id { localName := i } value)
      (other.setQualified id { localName := j } value) := by
  rw [Tree.setQualified, Tree.setQualified]
  rcases rel_cases (h.node id) with ⟨hf, hb⟩ | ⟨front, back, hf, hb, hn⟩
  · rw [hf, hb]
    exact ⟨rfl, h⟩
  · have hset := hn.setAttribute? h.names h.others hi hj value
    rw [hf, hb]
    dsimp only
    rcases rel_cases hset with ⟨hf, hb⟩ | ⟨node, mirror, hf, hb, hn⟩
    · rw [hf, hb]
      exact ⟨rfl, h⟩
    · rw [hf, hb]
      exact ⟨rfl, h.modify id hn⟩

theorem setAttribute (id : NodeId) (name value : String) :
    Built.Retagged rename (tree.setAttribute id name value) (other.setAttribute id name value) :=
  (h.intern name name).setQualified (tree.names.lookup_interned name)
    (other.names.lookup_interned name) id value

end Tree.Retagged

section Steps

variable {rename : String → String} {tree other : Tree}

theorem Built.Retagged.cases {α : Type} {front back : Built α} (h : front.Retagged rename back) :
    ∃ result tree other, front = (result, tree) ∧ back = (result, other) ∧
      tree.Retagged rename other :=
  ⟨front.1, front.2, back.2, rfl, Prod.ext h.1 rfl, h.2⟩

theorem Tree.Retagged.setAttributes (h : tree.Retagged rename other) (id : NodeId)
    (attributes : List (String × String)) : Built.Retagged rename (tree.setAttributes id attributes)
      (other.setAttributes id attributes) := by
  induction attributes generalizing tree other with
  | nil => exact ⟨rfl, h⟩
  | cons first rest ih =>
    obtain ⟨result, tree', other', hf, hb, hr⟩ := (h.setAttribute id first.1 first.2).cases
    rw [Tree.setAttributes, Tree.setAttributes, hf, hb]
    cases result with
    | error e => exact ⟨rfl, hr⟩
    | ok => exact ih hr

theorem Tree.Retagged.appendElement (h : tree.Retagged rename other) (parent : NodeId)
    (name : String) (attributes : List (String × String)) :
    Built.Retagged rename (tree.appendElement parent name attributes)
      (other.appendElement parent (rename name) attributes) := by
  obtain ⟨made, first, first', hf, hb, hr⟩ := (h.createElement name).cases
  rw [Tree.appendElement, Tree.appendElement, hf, hb]
  cases made with
  | error e => exact ⟨rfl, hr⟩
  | ok id =>
    obtain ⟨set, second, second', hf, hb, hr⟩ := (hr.setAttributes id attributes).cases
    dsimp only
    rw [hf, hb]
    cases set with
    | error e => exact ⟨rfl, hr⟩
    | ok => exact hr.append parent id

theorem Tree.Retagged.appendText (h : tree.Retagged rename other) (parent : NodeId)
    (content : String) :
    Built.Retagged rename (tree.appendText parent content) (other.appendText parent content) := by
  obtain ⟨made, first, first', hf, hb, hr⟩ := (h.createText content).cases
  rw [Tree.appendText, Tree.appendText, hf, hb]
  cases made with
  | error e => exact ⟨rfl, hr⟩
  | ok id => exact hr.append parent id

def Growth.retag (rename : String → String) : Growth → Growth
  | .createElement name => .createElement (rename name)
  | .createElementIn ns name => .createElementIn ns (rename name)
  | .appendElement parent name attributes => .appendElement parent (rename name) attributes
  | step => step

theorem Growth.next_retag (h : tree.Retagged rename other) (step : Growth) :
    (step.next tree).Retagged rename ((step.retag rename).next other) := by
  cases step with
  | createElement name => exact (h.createElement name).2
  | createElementIn ns name => exact (h.createElementIn ns name).2
  | createText content => exact (h.createText content).2
  | createComment content => exact (h.createComment content).2
  | append parent child => exact (h.append parent child).2
  | appendElement parent name attributes => exact (h.appendElement parent name attributes).2
  | appendText parent content => exact (h.appendText parent content).2
  | setAttribute id name value => exact (h.setAttribute id name value).2

theorem Tree.retagged_empty (rename : String → String) : Tree.empty.Retagged rename .empty := by
  refine ⟨.initial, .initial, rfl, fun id => ?_⟩
  obtain ⟨index⟩ := id
  cases index with
  | zero => exact .some (.intro .document _ _ _ _ _)
  | succ index => exact .none

/-- Whatever steps are taken, failing ones included, the tree built with the changed names
corresponds to the one built with the names as they are. -/
theorem Tree.grow_retag (rename : String → String) (steps : List Growth) :
    (grow steps).Retagged rename (grow (steps.map (Growth.retag rename))) := by
  have main : ∀ tree other : Tree, tree.Retagged rename other →
      (steps.foldl Growth.next tree).Retagged rename
        ((steps.map (Growth.retag rename)).foldl Growth.next other) := by
    induction steps with
    | nil => exact fun _ _ h => h
    | cons step steps ih => exact fun tree other h => ih _ _ (Growth.next_retag h step)
  exact main .empty .empty (retagged_empty rename)

/-- A reachable tree corresponds to itself: every number in it is that of a name in its table, and
no attribute has a namespace. -/
theorem Tree.Reachable.retagged (h : tree.Reachable) : tree.Retagged id tree := by
  obtain ⟨steps, rfl⟩ := h
  have hsame : Growth.retag id = id := by
    funext step
    cases step <;> rfl
  have hgrow := grow_retag id steps
  rw [hsame, List.map_id] at hgrow
  exact hgrow

end Steps

section Reads

variable {rename : String → String} {names others : NameTable} {tree other : Tree}

def Element.valueOf? (names : NameTable) (element : Element) (name : String) : Option String :=
  (element.attributes.find? fun item => names.lookup name = some item.name.localName).map
    Attribute.value

theorem Tree.tagName?_of_lookup {id : NodeId} {element : Element} {name : String}
    (h : tree.names.Listed) (he : tree.element? id = some element)
    (hn : tree.names.lookup name = some element.name.localName) :
    tree.tagName? id = some name := by
  rw [tagName?, he, Option.map_some, resolve, h.get_of_lookup hn]

theorem Tree.attribute?_eq_bind (tree : Tree) (id : NodeId) (name : String) :
    tree.attribute? id name =
      (tree.element? id).bind fun element => element.valueOf? tree.names name := by
  unfold attribute? Element.valueOf?
  cases tree.names.lookup name with
  | none =>
    cases tree.element? id with
    | none => rfl
    | some element =>
      have hnone : ∀ item ∈ element.attributes,
          ¬ decide (none = some item.name.localName) = true := fun _ _ => by simp
      exact (congrArg (Option.map Attribute.value) (List.find?_eq_none.mpr hnone)).symm
  | some number =>
    simp only [Option.bind_some, Option.some_inj, Element.get?, eq_comm]

theorem Element.Retagged.valueOf?_eq {front back : Element}
    (h : Retagged rename names others front back) (hn : names.Listed) (ho : others.Listed)
    (name : String) : back.valueOf? others name = front.valueOf? names name := by
  unfold valueOf?
  have hattributes := h.attributes
  generalize front.attributes = fronts, back.attributes = backs at hattributes
  induction hattributes with
  | nil => rfl
  | @cons front back fronts backs ha _ ih =>
    have hname : names.lookup name = some front.name.localName ↔
        others.lookup name = some back.name.localName := ha.name.lookup_iff hn ho
    by_cases hk : names.lookup name = some front.name.localName
    · rw [List.find?_cons_of_pos (by simpa using hname.mp hk),
        List.find?_cons_of_pos (by simpa using hk)]
      exact congrArg some ha.value
    · rw [List.find?_cons_of_neg (by simpa using mt hname.mpr hk),
        List.find?_cons_of_neg (by simpa using hk)]
      exact ih

namespace Tree.Retagged

variable (h : tree.Retagged rename other)

include h

theorem tagName?_eq (id : NodeId) : other.tagName? id = (tree.tagName? id).map rename := by
  rcases rel_cases (h.element? id) with ⟨hf, hb⟩ | ⟨front, back, hf, hb, he⟩
  · rw [tagName?, tagName?, hf, hb]
    rfl
  · obtain ⟨name, hfront, hback⟩ := he.tag
    rw [tagName?_of_lookup h.names hf hfront, tagName?_of_lookup h.others hb hback, Option.map_some]

theorem attribute?_eq : other.attribute? = tree.attribute? := by
  funext id name
  rw [attribute?_eq_bind, attribute?_eq_bind]
  rcases rel_cases (h.element? id) with ⟨hf, hb⟩ | ⟨front, back, hf, hb, he⟩
  · rw [hf, hb]
    rfl
  · rw [hf, hb]
    exact he.valueOf?_eq h.names h.others name

end Tree.Retagged

end Reads

end TreeQuery
