import TreeQuery.Proofs.Tree.Retag

/-! What a query sees of an attribute that was set: the new value at this element under this name,
and nothing else that is new. -/
namespace TreeQuery

theorem find?_setAttribute (wanted : QualifiedName → Bool) (name : QualifiedName) (value : String)
    (attributes : List Attribute) :
    (setAttribute name value attributes).find? (fun item => wanted item.name) =
      ((attributes.find? fun item => wanted item.name).map fun item =>
        if item.name = name then ⟨name, value⟩ else item).or
      (if wanted name then some ⟨name, value⟩ else none) := by
  induction attributes with
  | nil =>
    rw [setAttribute, List.find?_cons]
    cases wanted name <;> rfl
  | cons first rest ih =>
    rw [setAttribute]
    by_cases hf : first.name = name
    · rw [if_pos hf, List.find?_cons, List.find?_cons, hf]
      cases hw : wanted name with
      | true => simp [hf]
      | false =>
        cases hrest : rest.find? fun item => wanted item.name with
        | none => simp
        | some item =>
          have hitem : item.name ≠ name := by
            rintro rfl
            have hwanted := List.find?_some hrest
            exact Bool.false_ne_true (hw.symm.trans hwanted)
          simp [hitem]
    · rw [if_neg hf, List.find?_cons, List.find?_cons]
      cases wanted first.name with
      | true => simp [hf]
      | false => exact ih

section Element

variable {names : NameTable} {number : NameId} {key name : String}

theorem Element.valueOf?_set_of_ne (element : Element) (value : String) (hl : names.Listed)
    (hk : names.lookup key = some number) (hne : name ≠ key) :
    (element.set { localName := number } value).valueOf? names name =
      element.valueOf? names name := by
  have hnumber : names.lookup name ≠ some number := fun hn => hne (hl.lookup_inj hn hk)
  rw [valueOf?, valueOf?, set]
  rw [find?_setAttribute fun other => names.lookup name = some other.localName]
  cases hf : element.attributes.find? fun item => names.lookup name = some item.name.localName with
  | none => simp [hnumber]
  | some item =>
    have hitem : item.name ≠ { localName := number } := by
      intro he
      have hlookup : names.lookup name = some item.name.localName := by
        simpa using List.find?_some hf
      rw [he] at hlookup
      exact hnumber hlookup
    simp [hitem]

/-- Where no attribute has a namespace, the one that was set is the one that is read. -/
theorem Element.valueOf?_set_self {element : Element} (value : String)
    (hk : names.lookup key = some number)
    (hp : ∀ item ∈ element.attributes, item.name.ns = none) :
    (element.set { localName := number } value).valueOf? names key = some value := by
  rw [valueOf?, set]
  rw [find?_setAttribute fun other => names.lookup key = some other.localName]
  cases hf : element.attributes.find? fun item => names.lookup key = some item.name.localName with
  | none => simp [hk]
  | some item =>
    have hlookup : names.lookup key = some item.name.localName := by
      simpa using List.find?_some hf
    have hitem : item.name = { localName := number } :=
      (QualifiedName.eq_plain_iff (hp item (List.mem_of_find?_eq_some hf))).mpr
        (Option.some.inj (hlookup.symm.trans hk))
    simp [hitem]

end Element

namespace Tree

variable {tree after : Tree} {id target : NodeId} {node changed : Node} {element : Element}
  {key value : String}

/-- What is left as it was, and the one value that is not. -/
structure AttributeSet (tree after : Tree) (target : NodeId) (key value : String) : Prop where
  shape : tree.SameShape after
  tag : ∀ id, after.tagName? id = tree.tagName? id
  value : after.attribute? target key = some value
  others : ∀ id name, id ≠ target ∨ name ≠ key → after.attribute? id name = tree.attribute? id name

theorem bind_modify {link : Node → Option NodeId} (hn : tree.node? target = some node)
    (hl : link changed = link node) (id : NodeId) :
    ((tree.modify target fun _ => changed).node? id).bind link = (tree.node? id).bind link := by
  rw [node?_modify]
  by_cases hi : target = id
  · subst hi
    rw [if_pos rfl, hn]
    exact hl
  · rw [if_neg hi]

theorem element?_modify (hn : tree.node? target = some node)
    (hc : changed.element? = some element) (id : NodeId) :
    (tree.modify target fun _ => changed).element? id =
      if id = target then some element else tree.element? id := by
  rw [element?, node?_modify]
  by_cases hi : id = target
  · subst hi
    rw [if_pos rfl, if_pos rfl, hn]
    exact hc
  · rw [if_neg hi, if_neg (Ne.symm hi)]
    rfl

theorem sameShape_modify (hn : tree.node? target = some node) (he : node.element?.isSome = true)
    (content : Element) :
    tree.SameShape (tree.modify target fun _ => { node with content := .element content }) := by
  constructor
  case size => exact size_modify tree target _
  case parent => exact funext (bind_modify hn rfl)
  case firstChild => exact funext (bind_modify hn rfl)
  case prevSibling => exact funext (bind_modify hn rfl)
  case nextSibling => exact funext (bind_modify hn rfl)
  case element =>
    funext id
    rw [isElement, element?_modify hn rfl]
    split
    · rename_i hi
      rw [hi, isElement, element?, hn]
      exact he.symm
    · rfl

theorem exists_setAttribute (he : tree.element? target = some element) (key value : String) :
    ∃ after, tree.setAttribute target key value = (.ok (), after) ∧
      after.names = (tree.names.intern key).2 ∧ tree.SameShape after ∧
      ∀ id, after.element? id = if id = target
        then some (element.set { localName := (tree.names.intern key).1 } value)
        else tree.element? id := by
  obtain ⟨node, hn, hnode⟩ := Option.bind_eq_some_iff.mp he
  let changed := element.set { localName := (tree.names.intern key).1 } value
  have hinterned : (tree.intern key).2.node? target = some node := hn
  have hshape : tree.SameShape (tree.intern key).2 := ⟨rfl, rfl, rfl, rfl, rfl, rfl⟩
  refine ⟨(tree.intern key).2.modify target fun _ => { node with content := .element changed }, ?_,
    rfl, hshape.trans (sameShape_modify hinterned (hnode ▸ rfl) changed),
    element?_modify hinterned rfl⟩
  unfold setAttribute setQualified
  dsimp only
  rw [hinterned]
  dsimp only
  rw [Node.setAttribute?, hnode]
  rfl

theorem exists_setAttribute_error (he : tree.element? target = none) (key value : String) :
    ∃ e, tree.setAttribute target key value = (.error e, (tree.intern key).2) := by
  have hinterned : (tree.intern key).2.node? target = tree.node? target := rfl
  unfold setAttribute setQualified
  dsimp only
  rw [hinterned]
  cases hn : tree.node? target with
  | none => exact ⟨_, rfl⟩
  | some node =>
    have hnode : node.element? = none := by rw [← he, element?, hn, Option.bind_some]
    dsimp only
    rw [Node.setAttribute?, hnode]
    exact ⟨_, rfl⟩

theorem Reachable.next (h : tree.Reachable) (step : Growth) : (step.next tree).Reachable := by
  obtain ⟨steps, rfl⟩ := h
  exact ⟨steps ++ [step], List.foldl_concat ..⟩

section Kept

variable {front back : Element} (h : tree.Reachable)
  (hn : after.names = (tree.names.intern key).2) (hf : tree.element? id = some front)

include h hn

theorem Reachable.listed_kept : after.names.Listed := by
  rw [hn]
  exact h.retagged.names.intern key

include hf

theorem Reachable.retagged_kept :
    front.Retagged (fun name => name) tree.names after.names front := by
  have hself := h.retagged.element? id
  rw [hf, Option.rel_some_some] at hself
  rw [hn]
  exact hself.mono (NameTable.Keeps.refl tree.names) (tree.names.keeps_intern key)

theorem Reachable.valueOf?_kept (name : String) :
    front.valueOf? after.names name = front.valueOf? tree.names name :=
  (h.retagged_kept hn hf).valueOf?_eq h.retagged.names (h.listed_kept hn) name

theorem Reachable.tagName?_kept (hb : after.element? id = some back)
    (hname : back.name = front.name) : after.tagName? id = tree.tagName? id := by
  obtain ⟨name, hfront, hback⟩ := (h.retagged_kept hn hf).tag
  rw [tagName?_of_lookup h.retagged.names hf hfront,
    tagName?_of_lookup (h.listed_kept hn) hb (hname ▸ hback)]

end Kept

theorem Reachable.attributeSet (h : tree.Reachable) (he : tree.isElement target = true)
    (key value : String) : ∃ after, tree.setAttribute target key value = (.ok (), after) ∧
      after.Reachable ∧ tree.AttributeSet after target key value := by
  obtain ⟨element, he⟩ := Option.isSome_iff_exists.mp he
  obtain ⟨after, hset, hnames, hshape, helement⟩ := exists_setAttribute he key value
  have htarget := (helement target).trans (if_pos rfl)
  have hsame : ∀ {id}, id ≠ target → after.element? id = tree.element? id :=
    fun hi => (helement _).trans (if_neg hi)
  have hkey : after.names.lookup key = some (tree.names.intern key).1 := by
    rw [hnames]
    exact tree.names.lookup_interned key
  refine ⟨after, hset, ?_, ?_⟩
  · have hnext : Growth.next tree (.setAttribute target key value) = after :=
      congrArg Prod.snd hset
    exact hnext ▸ h.next _
  constructor
  case shape => exact hshape
  case tag =>
    intro id
    by_cases hi : id = target
    · exact hi ▸ h.tagName?_kept hnames he htarget rfl
    · cases hid : tree.element? id with
      | none => rw [tagName?, tagName?, hsame hi, hid]; rfl
      | some front => exact h.tagName?_kept hnames hid ((hsame hi).trans hid) rfl
  case value =>
    have hplain : ∀ item ∈ element.attributes, item.name.ns = none := fun item hm =>
      (List.forall₂_same.mp (h.retagged_kept hnames he).attributes item hm).plain.1
    rw [attribute?_eq_bind, htarget]
    exact Element.valueOf?_set_self value hkey hplain
  case others =>
    intro id name hother
    rw [attribute?_eq_bind, attribute?_eq_bind]
    by_cases hi : id = target
    · have hne : name ≠ key := hother.resolve_left (not_not_intro hi)
      rw [hi, htarget, he, Option.bind_some, Option.bind_some,
        element.valueOf?_set_of_ne value (h.listed_kept hnames) hkey hne]
      exact h.valueOf?_kept hnames he name
    · rw [hsame hi]
      cases hid : tree.element? id with
      | none => rfl
      | some front => exact h.valueOf?_kept hnames hid name

end Tree

end TreeQuery
