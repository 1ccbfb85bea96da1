import TreeQuery.Proofs.Tree.Attributes
import TreeQuery.Proofs.Tree.History

/-! Trees against the histories of the steps that built them.
On its way into a tree and out of it each name passes through a name table that goes on growing. A
reachable tree nevertheless says of its elements what the plain history of its steps says: a tag and
a namespace are those that the element was made with, and of an attribute the value set last. -/
namespace TreeQuery

section Numbers

variable {names after : NameTable} {number : NameId} {key : String}

structure Attribute.Bears (names : NameTable) (key : String) (item : Attribute) : Prop where
  plain : item.name.ns = none
  number : names.lookup key = some item.name.localName

theorem Attribute.Bears.mono {item : Attribute} (h : item.Bears names key)
    (hk : names.Keeps after) : item.Bears after key :=
  ⟨h.plain, hk h.number⟩

theorem Attribute.Bears.name_iff {item : Attribute} {other : String} (h : item.Bears names other)
    (hl : names.Listed) (hk : names.lookup key = some number) :
    item.name = { localName := number } ↔ other = key := by
  rw [QualifiedName.eq_plain_iff h.plain]
  constructor
  · rintro rfl
    exact hl.lookup_inj h.number hk
  · rintro rfl
    exact Option.some.inj (h.number.symm.trans hk)

theorem setAttribute_bears {keys : List String} {attributes : List Attribute} (value : String)
    (hl : names.Listed) (hk : names.lookup key = some number)
    (h : List.Forall₂ (Attribute.Bears names) keys attributes) :
    List.Forall₂ (Attribute.Bears names) (if key ∈ keys then keys else keys ++ [key])
      (setAttribute { localName := number } value attributes) := by
  have hnew : Attribute.Bears names key ⟨{ localName := number }, value⟩ := ⟨rfl, hk⟩
  induction h with
  | nil => exact .cons hnew .nil
  | @cons first item keys attributes hf hrest ih =>
    have hname := hf.name_iff hl hk
    rw [setAttribute]
    by_cases he : first = key
    · subst he
      rw [if_pos (hname.mpr rfl), if_pos List.mem_cons_self]
      exact .cons hnew hrest
    · rw [if_neg (mt hname.mp he)]
      have hcons : (if key ∈ first :: keys then first :: keys else first :: keys ++ [key]) =
          first :: if key ∈ keys then keys else keys ++ [key] := by
        by_cases hm : key ∈ keys <;> simp [hm, Ne.symm he]
      rw [hcons]
      exact .cons hf ih

/-- An element that is as its origin and the attributes set at it say. -/
structure Element.Records (names : NameTable) (writes : List AttributeWrite) (origin : Origin)
    (element : Element) : Prop where
  tag : names.lookup origin.tag = some element.name.localName
  ns : Option.Rel (fun name number => names.lookup name = some number) origin.ns element.name.ns
  keys : List.Forall₂ (Attribute.Bears names) (AttributeWrite.names writes) element.attributes
  value : ∀ name, element.valueOf? names name = AttributeWrite.last? writes name

namespace Element.Records

variable {writes : List AttributeWrite} {origin : Origin} {element : Element}
  (h : element.Records names writes origin)

include h

theorem bears {item : Attribute} (hm : item ∈ element.attributes) :
    ∃ key, item.Bears names key := by
  have hkeys := h.keys
  generalize AttributeWrite.names writes = keys, element.attributes = attributes at hkeys hm
  induction hkeys with
  | nil => exact absurd hm List.not_mem_nil
  | @cons key _ _ _ hb _ ih =>
    rcases List.mem_cons.mp hm with rfl | hm
    · exact ⟨key, hb⟩
    · exact ih hm

theorem retagged (hk : names.Keeps after) :
    element.Retagged (fun name => name) names after element := by
  refine ⟨⟨origin.tag, h.tag, hk h.tag⟩, List.forall₂_same.mpr fun item hm => ?_⟩
  obtain ⟨key, hb⟩ := h.bears hm
  exact ⟨⟨hb.plain, hb.plain⟩, ⟨key, hb.number, hk hb.number⟩, rfl⟩

theorem mono (hl : names.Listed) (ha : after.Listed) (hk : names.Keeps after) :
    element.Records after writes origin := by
  refine ⟨hk h.tag, rel_imp h.ns fun _ _ hn => hk hn, h.keys.imp fun _ _ hb => hb.mono hk, ?_⟩
  exact fun name => ((h.retagged hk).valueOf?_eq hl ha name).trans (h.value name)

theorem set {write : AttributeWrite} (hl : names.Listed)
    (hk : names.lookup write.name = some number) :
    (element.set { localName := number } write.value).Records names (writes ++ [write]) origin := by
  refine ⟨h.tag, h.ns, ?_, fun name => ?_⟩
  · rw [AttributeWrite.names_concat]
    exact setAttribute_bears write.value hl hk h.keys
  · by_cases hn : name = write.name
    · subst hn
      rw [AttributeWrite.last?_concat_self]
      refine Element.valueOf?_set_self write.value hk fun item hm => ?_
      obtain ⟨key, hb⟩ := h.bears hm
      exact hb.plain
    · rw [AttributeWrite.last?_concat_of_ne hn, element.valueOf?_set_of_ne write.value hl hk hn]
      exact h.value name

end Element.Records

end Numbers

namespace Tree

/-- A tree in which each element is as the history of the steps says. -/
structure Records (tree : Tree) (history : History) : Prop where
  names : tree.names.Listed
  size : tree.size = history.made.length
  writes : ∀ write ∈ history.writes, (history.origin? write.id).isSome = true
  element : ∀ id, Option.Rel (Element.Records tree.names (history.writesTo id))
    (history.origin? id) (tree.element? id)

namespace Records

variable {tree after : Tree} {history : History} {origin : Option Origin} {id : NodeId}
  (h : tree.Records history)

include h

theorem same (hs : after.size = tree.size) (he : ∀ id, after.element? id = tree.element? id)
    (hl : after.names.Listed) (hk : tree.names.Keeps after.names) : after.Records history := by
  refine ⟨hl, hs.trans h.size, h.writes, fun id => ?_⟩
  rw [he]
  exact rel_imp (h.element id) fun _ _ hr => hr.mono h.names hl hk

theorem intern (name : String) : (tree.intern name).2.Records history :=
  h.same rfl (fun _ => rfl) (h.names.intern name) (tree.names.keeps_intern name)

theorem append (parent child : NodeId) : (tree.append parent child).2.Records history := by
  rw [Tree.append]
  cases tree.checkAppend parent child with
  | error e => exact h
  | ok =>
    refine h.same (tree.size_link parent child) (tree.element?_link parent child) ?_ ?_
    · exact (tree.names_link parent child).symm ▸ h.names
    · exact (tree.names_link parent child).symm ▸ NameTable.Keeps.refl tree.names

theorem writesTo_of_size_le (hi : tree.size ≤ id.index) : history.writesTo id = [] := by
  refine List.filter_eq_nil_iff.mpr fun write hm he => ?_
  have hlt := History.lt_of_origin? (h.writes write hm)
  rw [of_decide_eq_true he, ← h.size] at hlt
  omega

theorem create {node : Node}
    (hn : Option.Rel (Element.Records tree.names []) origin node.element?) :
    (tree.create node).2.Records (history.make origin) := by
  rw [Tree.create, NodeId.ofIndex?, History.make, ← h.size]
  by_cases hs : tree.size < NodeId.limit
  · rw [if_pos hs, if_pos hs]
    have hprefix : history.made <+: history.made ++ [origin] := List.prefix_append _ _
    refine ⟨h.names, ?_, fun write hm => ?_, fun id => ?_⟩
    · rw [List.length_append, ← h.size]
      exact Array.size_push _
    · have hw := h.writes write hm
      exact (congrArg Option.isSome
        (History.origin?_of_prefix hprefix (History.lt_of_origin? hw))).trans hw
    · rw [element?, node?_push, History.origin?_concat, ← h.size]
      by_cases hi : id.index = tree.size
      · have hnone : history.writesTo id = [] := h.writesTo_of_size_le (Nat.le_of_eq hi.symm)
        rw [if_pos hi, if_pos hi]
        change Option.Rel (Element.Records tree.names (history.writesTo id)) origin node.element?
        rw [hnone]
        exact hn
      · rw [if_neg hi, if_neg hi]
        exact h.element id
  · rw [if_neg hs, if_neg hs]
    exact h

theorem createElement (name : String) :
    (tree.createElement name).2.Records (history.make (some { tag := name })) := by
  have hname := tree.names.lookup_interned name
  exact (h.intern name).create (.some ⟨hname, .none, .nil, fun _ => rfl⟩)

theorem createElementIn (ns name : String) :
    (tree.createElementIn ns name).2.Records
      (history.make (some { tag := name, ns := some ns })) := by
  have hns := tree.names.lookup_interned ns
  have hname := (tree.intern ns).2.names.lookup_interned name
  have hkept := NameTable.keeps_intern (tree.intern ns).2.names name hns
  exact ((h.intern ns).intern name).create (.some ⟨hname, .some hkept, .nil, fun _ => rfl⟩)

theorem set {element : Element} {origin : Origin} {name : String} (value : String)
    (hr : element.Records tree.names (history.writesTo id) origin)
    (ho : history.origin? id = some origin) (hs : after.size = tree.size)
    (hn : after.names = (tree.names.intern name).2)
    (he : ∀ other, after.element? other = if other = id
      then some (element.set { localName := (tree.names.intern name).1 } value)
      else tree.element? other) :
    after.Records { history with writes := history.writes ++ [⟨id, name, value⟩] } := by
  have hkeeps : tree.names.Keeps after.names := hn ▸ tree.names.keeps_intern name
  have hlisted : after.names.Listed := hn ▸ h.names.intern name
  have hname : after.names.lookup name = some (tree.names.intern name).1 :=
    hn ▸ tree.names.lookup_interned name
  refine ⟨hlisted, hs.trans h.size, fun write hm => ?_, fun other => ?_⟩
  · rcases List.mem_append.mp hm with hm | hm
    · exact h.writes write hm
    · rw [List.mem_singleton.mp hm]
      exact congrArg Option.isSome ho
  · rw [he]
    by_cases hi : other = id
    · subst hi
      have horigin : History.origin? { history with
          writes := history.writes ++ [⟨other, name, value⟩] } other = some origin := ho
      have hset : Element.Records after.names (history.writesTo other ++ [⟨other, name, value⟩])
          origin (element.set { localName := (tree.names.intern name).1 } value) :=
        (hr.mono h.names hlisted hkeeps).set hlisted hname
      rw [if_pos rfl, horigin, History.writesTo_concat_self rfl]
      exact .some hset
    · rw [if_neg hi, History.writesTo_concat_of_ne hi]
      exact rel_imp (h.element other) fun _ _ hr => hr.mono h.names hlisted hkeeps

theorem setAttribute (id : NodeId) (name value : String) :
    (tree.setAttribute id name value).2.Records (history.write ⟨id, name, value⟩) ∧
      ((tree.setAttribute id name value).1 = .ok () ↔ (history.origin? id).isSome = true) := by
  rcases rel_cases (h.element id) with ⟨ho, he⟩ | ⟨origin, element, ho, he, hr⟩
  · obtain ⟨e, hset⟩ := exists_setAttribute_error he name value
    rw [hset, ho, History.write_of_none ho]
    exact ⟨h.intern name, nofun, nofun⟩
  · obtain ⟨after, hset, hnames, hshape, helement⟩ := exists_setAttribute he name value
    rw [hset, ho, History.write_of_some ho]
    exact ⟨h.set value hr ho hshape.size hnames helement, fun _ => rfl, fun _ => rfl⟩

theorem setAttributes (ho : (history.origin? id).isSome = true)
    (attributes : List (String × String)) : ∃ after,
    tree.setAttributes id attributes = (.ok (), after) ∧
      after.Records ((attributes.map fun (name, value) => ⟨id, name, value⟩).foldl History.write
        history) := by
  induction attributes generalizing tree history with
  | nil => exact ⟨tree, rfl, h⟩
  | cons first rest ih =>
    obtain ⟨hr, hok⟩ := h.setAttribute id first.1 first.2
    have hset : tree.setAttribute id first.1 first.2 = (.ok (), _) := Prod.ext (hok.mpr ho) rfl
    rw [Tree.setAttributes, hset]
    refine ih hr ?_
    rw [History.origin?, History.made_write]
    exact ho

end Records

end Tree

section Steps

variable {tree : Tree} {history : History} {id : NodeId}

namespace Tree

def place (tree : Tree) : Except TreeError NodeId :=
  if tree.size < NodeId.limit then .ok ⟨tree.size⟩ else .error (.full tree.size)

theorem place_of_room (h : tree.size < NodeId.limit) : tree.place = .ok ⟨tree.size⟩ := if_pos h

theorem place_of_full (h : ¬ tree.size < NodeId.limit) : tree.place = .error (.full tree.size) :=
  if_neg h

theorem place_eq_ok_iff : tree.place = .ok id ↔ tree.size < NodeId.limit ∧ id = ⟨tree.size⟩ := by
  rw [place]
  split
  · rename_i h
    simp [h, eq_comm]
  · rename_i h
    simp [h]

theorem create_answer (tree : Tree) (node : Node) : (tree.create node).1 = tree.place := by
  rw [create, NodeId.ofIndex?, place]
  by_cases hs : tree.size < NodeId.limit
  · rw [if_pos hs, if_pos hs]
  · rw [if_neg hs, if_neg hs]

theorem createElement_answer (tree : Tree) (name : String) :
    (tree.createElement name).1 = tree.place :=
  create_answer (tree.intern name).2 _

theorem createElementIn_answer (tree : Tree) (ns name : String) :
    (tree.createElementIn ns name).1 = tree.place :=
  create_answer ((tree.intern ns).2.intern name).2 _

theorem append_eq_ok {parent child : NodeId} (h : (tree.append parent child).1 = .ok id) :
    id = child := by
  rw [append] at h
  cases hc : tree.checkAppend parent child with
  | error e => rw [hc] at h; cases h
  | ok => rw [hc] at h; exact (Except.ok.inj h).symm

theorem appendElement_eq_ok {parent : NodeId} {name : String} {attributes : List (String × String)}
    (h : (tree.appendElement parent name attributes).1 = .ok id) : tree.place = .ok id := by
  rw [appendElement] at h
  split at h
  · cases h
  · rename_i made after hc
    split at h
    · cases h
    · rw [append_eq_ok h, ← tree.createElement_answer name, hc]

theorem appendText_eq_ok {parent : NodeId} {content : String}
    (h : (tree.appendText parent content).1 = .ok id) : tree.place = .ok id := by
  rw [appendText] at h
  split at h
  · cases h
  · rename_i made after hc
    rw [append_eq_ok h, ← tree.create_answer (.ofText content)]
    exact congrArg Prod.fst hc

end Tree

theorem Growth.apply_eq_ok {step : Growth} {origin : Option Origin}
    (hm : step.makes? = some origin) (h : (step.apply tree).1 = .ok (some id)) :
    tree.place = .ok id := by
  have answered : ∀ {built : Built NodeId}, (apply.answer built).1 = .ok (some id) →
      built.1 = .ok id := by
    rintro ⟨result, after⟩ ha
    cases result with
    | error e => cases ha
    | ok made => cases ha; rfl
  cases step with
  | createElement name => exact (tree.createElement_answer name).symm.trans (answered h)
  | createElementIn ns name => exact (tree.createElementIn_answer ns name).symm.trans (answered h)
  | createText content => exact (tree.create_answer _).symm.trans (answered h)
  | createComment content => exact (tree.create_answer _).symm.trans (answered h)
  | append parent child => cases hm
  | appendElement parent name attributes => exact Tree.appendElement_eq_ok (answered h)
  | appendText parent content => exact Tree.appendText_eq_ok (answered h)
  | setAttribute id name value => cases hm

namespace Tree.Records

variable (h : tree.Records history)

include h

theorem appendElement (parent : NodeId) (name : String) (attributes : List (String × String)) :
    (tree.appendElement parent name attributes).2.Records
      (history.note (.appendElement parent name attributes)) := by
  have hmade := h.createElement name
  have hplace := tree.createElement_answer name
  rw [Tree.appendElement]
  by_cases hs : tree.size < NodeId.limit
  · obtain ⟨made, hc⟩ : ∃ made, tree.createElement name = (.ok ⟨tree.size⟩, made) :=
      ⟨_, Prod.ext (hplace.trans (place_of_room hs)) rfl⟩
    rw [hc] at hmade ⊢
    have horigin : ((history.make (some { tag := name })).origin? ⟨tree.size⟩).isSome = true := by
      rw [h.size, History.origin?, History.make_of_room (h.size ▸ hs), List.getElem?_concat_length]
      rfl
    obtain ⟨after, hset, hr⟩ := hmade.setAttributes horigin attributes
    dsimp only
    rw [hset]
    rw [h.size] at hr
    exact hr.append parent ⟨tree.size⟩
  · obtain ⟨made, hc⟩ : ∃ made, tree.createElement name = (.error (.full tree.size), made) :=
      ⟨_, Prod.ext (hplace.trans (place_of_full hs)) rfl⟩
    rw [hc] at hmade ⊢
    rw [History.make_of_full (h.size ▸ hs)] at hmade
    have hskip : history.note (.appendElement parent name attributes) = history := by
      rw [History.note, Growth.makes?, Option.elim_some, History.make_of_full (h.size ▸ hs)]
      refine History.foldl_write_of_none fun write hm => ?_
      obtain ⟨pair, -, rfl⟩ := List.mem_map.mp hm
      rw [History.origin?, List.getElem?_eq_none (Nat.le_refl _)]
      rfl
    rw [hskip]
    exact hmade

theorem appendText (parent : NodeId) (content : String) :
    (tree.appendText parent content).2.Records (history.note (.appendText parent content)) := by
  have hmade : (tree.createText content).2.Records (history.make none) := h.create .none
  rw [Tree.appendText]
  split
  · rename_i e after hc
    rw [hc] at hmade
    exact hmade
  · rename_i id made hc
    rw [hc] at hmade
    exact hmade.append parent id

/-- One step changes a tree and its history alike, also where it fails half way. -/
theorem next (step : Growth) : (step.next tree).Records (history.note step) := by
  cases step with
  | createElement name => exact h.createElement name
  | createElementIn ns name => exact h.createElementIn ns name
  | createText content => exact h.create .none
  | createComment content => exact h.create .none
  | append parent child => exact h.append parent child
  | appendElement parent name attributes => exact h.appendElement parent name attributes
  | appendText parent content => exact h.appendText parent content
  | setAttribute id name value => exact (h.setAttribute id name value).1

theorem foldl_next (steps : List Growth) :
    (steps.foldl Growth.next tree).Records (steps.foldl History.note history) := by
  induction steps generalizing tree history with
  | nil => exact h
  | cons step steps ih => exact ih (h.next step)

end Tree.Records

end Steps

namespace Tree

theorem records_empty : Tree.empty.Records {} := by
  refine ⟨.initial, rfl, fun _ hm => absurd hm List.not_mem_nil, fun id => ?_⟩
  obtain ⟨index⟩ := id
  cases index with
  | zero => exact .none
  | succ index => exact .none

theorem records_grow (steps : List Growth) : (grow steps).Records (.ofSteps steps) :=
  records_empty.foldl_next steps

/-- A tree that says of its elements what a history says. -/
structure Tells (tree : Tree) (history : History) : Prop where
  size : tree.size = history.made.length
  tag : ∀ id, tree.tagName? id = (history.origin? id).map Origin.tag
  ns : ∀ id, tree.namespace? id = (history.origin? id).bind Origin.ns
  value : ∀ id name, tree.attribute? id name = history.value? id name
  names : ∀ id element, tree.element? id = some element →
    element.attributes.map (fun item => tree.resolve item.name.localName) = history.names id
  settable : ∀ id name value,
    (tree.setAttribute id name value).1 = .ok () ↔ (history.origin? id).isSome = true
  answer : ∀ step origin id, step.makes? = some origin →
    (step.apply tree).1 = .ok (some id) → (history.note step).origin? id = origin

section Element

variable {tree : Tree} {id : NodeId} {element : Element} {writes : List AttributeWrite}
  {origin : Origin} (hr : element.Records tree.names writes origin)
  (he : tree.element? id = some element)

include hr he

theorem tagName?_of_records (hl : tree.names.Listed) : tree.tagName? id = some origin.tag :=
  tagName?_of_lookup hl he hr.tag

theorem namespace?_of_records (hl : tree.names.Listed) : tree.namespace? id = origin.ns := by
  rw [namespace?, he, Option.bind_some]
  rcases rel_cases hr.ns with ⟨hf, hb⟩ | ⟨name, number, hf, hb, hn⟩
  · rw [hf, hb]
    rfl
  · rw [hf, hb, Option.map_some, resolve, hl.get_of_lookup hn]

theorem attribute?_of_records (name : String) :
    tree.attribute? id name = AttributeWrite.last? writes name := by
  rw [attribute?_eq_bind, he]
  exact hr.value name

end Element

namespace Records

variable {tree : Tree} {history : History} (h : tree.Records history)

include h

theorem tagName?_eq (id : NodeId) : tree.tagName? id = (history.origin? id).map Origin.tag := by
  rcases rel_cases (h.element id) with ⟨ho, he⟩ | ⟨origin, element, ho, he, hr⟩
  · rw [tagName?, ho, he]
    rfl
  · rw [tagName?_of_records hr he h.names, ho]
    rfl

theorem namespace?_eq (id : NodeId) : tree.namespace? id = (history.origin? id).bind Origin.ns := by
  rcases rel_cases (h.element id) with ⟨ho, he⟩ | ⟨origin, element, ho, he, hr⟩
  · rw [namespace?, ho, he]
    rfl
  · rw [namespace?_of_records hr he h.names, ho]
    rfl

theorem attribute?_eq (id : NodeId) (name : String) :
    tree.attribute? id name = history.value? id name := by
  rcases rel_cases (h.element id) with ⟨ho, he⟩ | ⟨origin, element, ho, he, hr⟩
  · have hnone : history.writesTo id = [] := by
      refine List.filter_eq_nil_iff.mpr fun write hm hi => ?_
      have hw := h.writes write hm
      rw [of_decide_eq_true hi, ho] at hw
      cases hw
    rw [attribute?_eq_bind, he, History.value?, hnone]
    rfl
  · exact attribute?_of_records hr he name

theorem names_eq {id : NodeId} {element : Element} (he : tree.element? id = some element) :
    element.attributes.map (fun item => tree.resolve item.name.localName) = history.names id := by
  rcases rel_cases (h.element id) with ⟨-, hnone⟩ | ⟨origin, found, -, hfound, hr⟩
  · rw [he] at hnone
    cases hnone
  · cases he.symm.trans hfound
    have hkeys := hr.keys
    rw [History.names]
    generalize AttributeWrite.names _ = keys, element.attributes = attributes at hkeys
    induction hkeys with
    | nil => rfl
    | cons hb _ ih => rw [List.map_cons, ih, resolve, h.names.get_of_lookup hb.number]

theorem tells : tree.Tells history := by
  constructor
  case size => exact h.size
  case tag => exact h.tagName?_eq
  case ns => exact h.namespace?_eq
  case value => exact h.attribute?_eq
  case names => exact fun _ _ => h.names_eq
  case settable => exact fun id name value => (h.setAttribute id name value).2
  case answer =>
    intro step origin id hm hok
    obtain ⟨hroom, rfl⟩ := place_eq_ok_iff.mp (Growth.apply_eq_ok hm hok)
    rw [h.size] at hroom ⊢
    exact History.origin?_note hm hroom

end Records

/-- After any run the tree says what the history of the run says, and of a node that exists it goes
on saying the tag and the namespace that the node was made with, whatever steps follow. -/
theorem grow_tells (steps more : List Growth) :
    (grow (steps ++ more)).Tells (.ofSteps (steps ++ more)) ∧
    ∀ id, (grow steps).contains id = true →
      (grow (steps ++ more)).tagName? id =
        ((History.ofSteps steps).origin? id).map Origin.tag ∧
      (grow (steps ++ more)).namespace? id =
        ((History.ofSteps steps).origin? id).bind Origin.ns := by
  have hnow := records_grow (steps ++ more)
  refine ⟨hnow.tells, fun id hc => ?_⟩
  have hplace : id.index < (History.ofSteps steps).made.length := by
    rw [← (records_grow steps).size]
    exact contains_iff.mp hc
  have hkept : (History.ofSteps (steps ++ more)).origin? id =
      (History.ofSteps steps).origin? id := by
    rw [History.ofSteps_append]
    exact History.origin?_of_prefix (History.prefix_foldl_note _ more) hplace
  rw [hnow.tagName?_eq, hnow.namespace?_eq, hkept]
  exact ⟨rfl, rfl⟩

/-- An element is made below a text, which refuses it, and keeps its attributes all the same; none
can be set at the text itself. -/
theorem told_of_refused_parent :
    let steps : List Growth := [.createElementIn "urn:parts" "item", .setAttribute ⟨1⟩ "id" "a",
      .appendText .root "text"]
    let more : List Growth := [.appendElement ⟨2⟩ "part" [("k", "1"), ("id", "x"), ("k", "2")],
      .setAttribute ⟨2⟩ "k" "v", .setAttribute ⟨1⟩ "id" "b"]
    let tree := grow (steps ++ more)
    (grow steps).contains ⟨1⟩ = true ∧
    tree.tagName? ⟨1⟩ = some "item" ∧ tree.namespace? ⟨1⟩ = some "urn:parts" ∧
    tree.attribute? ⟨1⟩ "id" = some "b" ∧ tree.attribute? ⟨2⟩ "k" = none ∧
    tree.tagName? ⟨3⟩ = some "part" ∧ tree.attribute? ⟨3⟩ "k" = some "2" := by
  intro steps more tree
  obtain ⟨htells, hkept⟩ := grow_tells steps more
  have hc : (grow steps).contains ⟨1⟩ = true := by decide
  obtain ⟨htag, hns⟩ := hkept ⟨1⟩ hc
  refine ⟨hc, htag.trans ?_, hns.trans ?_, (htells.value ⟨1⟩ "id").trans ?_,
    (htells.value ⟨2⟩ "k").trans ?_, (htells.tag ⟨3⟩).trans ?_, (htells.value ⟨3⟩ "k").trans ?_⟩
  all_goals decide

end Tree

end TreeQuery
