import TreeQuery.Proofs.Tree.Adoption
import TreeQuery.Proofs.Tree.Failure

/-! The text of a node, gathered from all levels below it.
It is made of the contents of the texts below the node, in document order, and of nothing else. An
append puts the text of the new child behind that of its parent; above the parent this is one piece
put in between, and everywhere else the text stays as it was. -/
namespace TreeQuery

namespace Tree

variable {tree after : Tree} {id p c x parent child : NodeId} {ids listing : List NodeId}

def text? (tree : Tree) (id : NodeId) : Option String := (tree.node? id).bind Node.text?

/-- What a node adds to the text of its parent: its content if it is a text, else all text below. -/
def ownText (tree : Tree) (id : NodeId) : String := (tree.text? id).getD (tree.textContent id)

/-- What comes of going through siblings, where a text gives its content and any other node what
comes of going through its children. Only links are followed, to any depth. -/
inductive Gathers (tree : Tree) : Option NodeId → String → Prop where
  | stop : Gathers tree none ""
  | text {id content rest} : tree.text? id = some content →
      Gathers tree (tree.nextSibling? id) rest → Gathers tree (some id) (content ++ rest)
  | inner {id own rest} : tree.text? id = none → Gathers tree (tree.firstChild? id) own →
      Gathers tree (tree.nextSibling? id) rest → Gathers tree (some id) (own ++ rest)

/-- Nodes side by side, each followed by all nodes below it: document order. -/
inductive Outline (tree : Tree) : List NodeId → List NodeId → Prop where
  | nil : Outline tree [] []
  | cons {c ids below after} : Outline tree (tree.children c) below → Outline tree ids after →
      Outline tree (c :: ids) (c :: (below ++ after))

theorem Gathers.unique {start : Option NodeId} {text other : String}
    (h : tree.Gathers start text) (k : tree.Gathers start other) : text = other := by
  induction h generalizing other with
  | stop =>
    cases k
    rfl
  | text ht _ ih =>
    cases k with
    | text kt k =>
      cases ht.symm.trans kt
      rw [ih k]
    | inner kt => cases ht.symm.trans kt
  | inner ht _ _ ihOwn ihRest =>
    cases k with
    | text kt => cases ht.symm.trans kt
    | inner _ ko kr => rw [ihOwn ko, ihRest kr]

theorem below_iff : tree.Below x c ↔ ∃ d, tree.parent? d = some c ∧ tree.Inside x d := by
  rw [Below, Relation.TransGen.tail'_iff]
  exact exists_congr fun _ => and_comm

namespace Forest

variable (f : Forest tree tree.children)

include f

theorem text?_of_parent? (h : tree.parent? c = some p) : tree.text? p = none := by
  obtain ⟨node, hn, hc⟩ := f.holder h
  rw [text?, hn, Option.bind_some, Node.text?]
  cases hcontent : node.content with
  | text => rw [Node.isContainer, hcontent] at hc; cases hc
  | document | element | comment => rfl

theorem children_of_text {content : String} (h : tree.text? id = some content) :
    tree.children id = [] := by
  refine List.eq_nil_iff_forall_not_mem.mpr fun c hc => ?_
  cases h.symm.trans (f.text?_of_parent? (f.parent.mpr hc))

theorem textContent_eq (id : NodeId) :
    tree.textContent id = String.join ((tree.children id).map tree.ownText) := by
  rw [textContent, ← f.textBelow_succ (Nat.le_add_right _ _), textBelow]
  refine congrArg String.join (List.map_congr_left fun c _ => ?_)
  rw [ownText, text?, textContent]
  cases (tree.node? c).bind Node.text? <;> rfl

theorem gathers (id : NodeId) : tree.Gathers (tree.firstChild? id) (tree.textContent id) := by
  refine f.induct_children
    (P := fun id => tree.Gathers (tree.firstChild? id) (tree.textContent id)) ?_ id
  intro id ih
  have main : ∀ back front, tree.children id = front ++ back →
      tree.Gathers back.head? (String.join (back.map tree.ownText)) := by
    intro back
    induction back with
    | nil => exact fun _ _ => .stop
    | cons c back ihBack =>
      intro front hs
      have hrest := ihBack (front ++ [c]) (by rw [hs, List.append_assoc, List.singleton_append])
      rw [← ((f.chain id).along hs).2] at hrest
      rw [List.map_cons, String.join_cons, List.head?_cons, ownText]
      cases ht : tree.text? c with
      | some content => exact .text ht hrest
      | none =>
        have hp : tree.parent? c = some id := f.parent.mpr (by simp [hs])
        exact .inner ht (ih c hp) hrest
  rw [f.first, f.textContent_eq]
  exact main _ [] rfl

theorem exists_outline (id : NodeId) : ∃ listing, tree.Outline (tree.children id) listing := by
  refine f.induct_children (P := fun id => ∃ listing, tree.Outline (tree.children id) listing) ?_ id
  intro id step
  have hids : ∀ ids : List NodeId, (∀ c ∈ ids, tree.parent? c = some id) →
      ∃ listing, tree.Outline ids listing := by
    intro ids
    induction ids with
    | nil => exact fun _ => ⟨[], .nil⟩
    | cons c ids ih =>
      intro h
      obtain ⟨hc, hrest⟩ := List.forall_mem_cons.mp h
      obtain ⟨below, hb⟩ := step c hc
      obtain ⟨after, ha⟩ := ih hrest
      exact ⟨c :: (below ++ after), .cons hb ha⟩
  exact hids _ fun c hc => f.parent.mpr hc

theorem mem_outline_iff (h : tree.Outline ids listing) :
    x ∈ listing ↔ ∃ c ∈ ids, tree.Inside x c := by
  induction h with
  | nil => simp
  | @cons c ids below after _ _ ihBelow ihAfter =>
    have hinside : tree.Inside x c ↔ x = c ∨ x ∈ below := by
      rw [ihBelow, Inside, Relation.reflTransGen_iff_eq_or_transGen, eq_comm]
      refine or_congr_right (below_iff.trans (exists_congr fun d => ?_))
      rw [f.parent]
    rw [List.mem_cons, List.mem_append, List.exists_mem_cons_iff, hinside, ihAfter, or_assoc]

theorem mem_outline_children_iff (h : tree.Outline (tree.children id) listing) :
    x ∈ listing ↔ tree.Below x id := by
  rw [f.mem_outline_iff h, below_iff]
  exact exists_congr fun c => by rw [f.parent]

theorem outline_nodup (h : tree.Outline ids listing) (hn : ids.Nodup)
    (hp : ∀ c ∈ ids, tree.parent? c = some p) : listing.Nodup := by
  induction h generalizing p with
  | nil => exact List.nodup_nil
  | @cons c ids below after hb ha ihBelow ihAfter =>
    obtain ⟨hc, hids⟩ := List.nodup_cons.mp hn
    obtain ⟨hpc, hpids⟩ := List.forall_mem_cons.mp hp
    have hbelow : below.Nodup := ihBelow (f.chain c).route.nodup fun d hd => f.parent.mpr hd
    have hapart : ∀ x ∈ after, ¬ tree.Inside x c := by
      intro x hx hin
      obtain ⟨d, hd, hxd⟩ := (f.mem_outline_iff ha).mp hx
      exact hc (f.eq_of_inside_both hpc (hpids d hd) hin hxd ▸ hd)
    rw [List.nodup_cons, List.mem_append, not_or, List.nodup_append]
    refine ⟨⟨fun hm => ?_, fun hm => hapart c hm (.self tree c)⟩, hbelow, ihAfter hids hpids, ?_⟩
    · exact f.not_below_self c ((f.mem_outline_children_iff hb).mp hm)
    · rintro x hx _ hy rfl
      exact hapart x hy ((f.mem_outline_children_iff hb).mp hx).inside

theorem join_ownText (h : tree.Outline ids listing) :
    String.join (ids.map tree.ownText) = String.join (listing.filterMap tree.text?) := by
  induction h with
  | nil => rfl
  | @cons c ids below after hb _ ihBelow ihAfter =>
    rw [List.map_cons, String.join_cons, ihAfter, ownText]
    cases ht : tree.text? c with
    | some content =>
      rw [f.children_of_text ht] at hb
      cases hb
      rw [List.filterMap_cons_some ht, List.nil_append, String.join_cons, Option.getD_some]
    | none =>
      rw [List.filterMap_cons_none ht, List.filterMap_append, String.join_append, ← ihBelow,
        ← f.textContent_eq, Option.getD_none]

end Forest

/-- A text is what the recursion along the links comes to, and it consists of the contents of the
texts below the node, each once and in document order. -/
structure ReadsText (tree : Tree) (id : NodeId) (text : String) : Prop where
  ends : ∀ other, tree.Gathers (tree.firstChild? id) other ↔ other = text
  listed : ∃ listing, tree.Outline (tree.children id) listing ∧ listing.Nodup ∧
    (∀ x, x ∈ listing ↔ tree.Below x id) ∧ text = String.join (listing.filterMap tree.text?)

theorem Forest.readsText (f : Forest tree tree.children) (id : NodeId) :
    tree.ReadsText id (tree.textContent id) := by
  constructor
  case ends =>
    refine fun other => ⟨fun h => h.unique (f.gathers id), ?_⟩
    rintro rfl
    exact f.gathers id
  case listed =>
    obtain ⟨listing, h⟩ := f.exists_outline id
    refine ⟨listing, h, ?_, fun x => f.mem_outline_children_iff h, ?_⟩
    · exact f.outline_nodup h (f.chain id).route.nodup fun c hc => f.parent.mpr hc
    · rw [f.textContent_eq, f.join_ownText h]

/-- The texts before and after an append: the parent and the nodes above it have gained the text of
the child, right behind all that the parent had before, and no other node has gained or lost any. -/
structure TextAppended (tree after : Tree) (parent child : NodeId) : Prop where
  here : after.textContent parent = tree.textContent parent ++ tree.ownText child
  elsewhere : ∀ id, id ≠ parent → id ∉ tree.ancestors parent →
    after.textContent id = tree.textContent id
  above : ∀ id ∈ tree.ancestors parent, ∃ front back,
    tree.textContent id = front ++ tree.textContent parent ++ back ∧
    after.textContent id = front ++ (tree.textContent parent ++ tree.ownText child) ++ back

structure Joins (tree after : Tree) (parent child : NodeId) : Prop where
  appended : tree.Appended after child
  adopted : tree.Adopted after parent child
  apart : ¬ tree.Inside parent child

namespace Joins

variable (h : tree.Joins after parent child)

include h

theorem text?_eq (id : NodeId) : after.text? id = tree.text? id := by
  have hcontent := congrArg (Option.bind · fun content => Node.text? { content })
    (h.adopted.content id)
  simp only [Option.bind_map] at hcontent
  exact hcontent

theorem ownText_eq (hc : after.textContent c = tree.textContent c) :
    after.ownText c = tree.ownText c := by
  rw [ownText, ownText, h.text?_eq, hc]

theorem textContent_eq (hid : ¬ tree.Inside parent id) :
    after.textContent id = tree.textContent id := by
  have f := h.appended.forest
  refine f.induct_children (P := fun id => ¬ tree.Inside parent id →
    after.textContent id = tree.textContent id) ?_ id hid
  intro id ih hid
  have hne : id ≠ parent := by
    rintro rfl
    exact hid (.self tree id)
  rw [h.appended.grown.textContent_eq, f.textContent_eq, h.adopted.childrenElsewhere id hne]
  refine congrArg String.join (List.map_congr_left fun c hc => h.ownText_eq ?_)
  have hp := f.parent.mpr hc
  exact ih c hp fun hin => hid (hin.trans (Below.of_parent? hp).inside)

theorem textContent_parent :
    after.textContent parent = tree.textContent parent ++ tree.ownText child := by
  have f := h.appended.forest
  have hold : (tree.children parent).map after.ownText =
      (tree.children parent).map tree.ownText := by
    refine List.map_congr_left fun c hc => h.ownText_eq (h.textContent_eq fun hin => ?_)
    have hp := f.parent.mpr hc
    exact f.not_below_self c ((Below.of_parent? hp).trans_inside hin)
  rw [h.appended.grown.textContent_eq, f.textContent_eq, h.adopted.children, List.map_append, hold,
    String.join_append, List.map_singleton, String.join_cons, String.join_nil, String.append_empty,
    h.ownText_eq (h.textContent_eq h.apart)]

theorem ownText_inside (hin : tree.Inside parent id) :
    tree.ownText id = tree.textContent id ∧ after.ownText id = after.textContent id := by
  have hnone : tree.text? id = none := by
    rcases Relation.reflTransGen_iff_eq_or_transGen.mp hin with rfl | hb
    · exact (h.text?_eq id).symm.trans (h.appended.grown.text?_of_parent? h.adopted.parent)
    · obtain ⟨c, hp, -⟩ := below_iff.mp hb
      exact h.appended.forest.text?_of_parent? hp
  rw [ownText, ownText, h.text?_eq, hnone]
  exact ⟨rfl, rfl⟩

/-- What the text of one child gains inside is gained by the text above it at the same place. -/
theorem gains_above {piece : String} (hin : tree.Inside parent c) (hp : tree.parent? c = some id)
    (hc : ∃ front back, tree.ownText c = front ++ tree.textContent parent ++ back ∧
      after.ownText c = front ++ piece ++ back) :
    ∃ front back, tree.textContent id = front ++ tree.textContent parent ++ back ∧
      after.textContent id = front ++ piece ++ back := by
  have f := h.appended.forest
  have hne : id ≠ parent := by
    rintro rfl
    exact f.not_below_self id (Relation.TransGen.tail' hin hp)
  obtain ⟨front, back, hold, hnew⟩ := hc
  obtain ⟨before, rest, hs⟩ := List.append_of_mem (f.parent.mp hp)
  have hother : c ∉ before ++ rest := by
    have hn : (before ++ c :: rest).Nodup := hs ▸ (f.chain id).route.nodup
    exact (List.nodup_cons.mp (List.perm_middle.nodup_iff.mp hn)).1
  have hsame : ∀ d ∈ before ++ rest, after.ownText d = tree.ownText d := by
    intro d hd
    have hpd : tree.parent? d = some id := by
      rw [f.parent, hs, List.perm_middle.mem_iff]
      exact List.mem_cons_of_mem c hd
    refine h.ownText_eq (h.textContent_eq fun hind => hother ?_)
    exact f.eq_of_inside_both hpd hp hind hin ▸ hd
  obtain ⟨hbefore, hrest⟩ := List.forall_mem_append.mp hsame
  refine ⟨String.join (before.map tree.ownText) ++ front,
    back ++ String.join (rest.map tree.ownText), ?_, ?_⟩
  · rw [f.textContent_eq, hs, List.map_append, List.map_cons, String.join_append, String.join_cons,
      hold]
    simp only [String.append_assoc]
  · rw [h.appended.grown.textContent_eq, h.adopted.childrenElsewhere id hne, hs, List.map_append,
      List.map_cons, List.map_congr_left hbefore, List.map_congr_left hrest, String.join_append,
      String.join_cons, hnew]
    simp only [String.append_assoc]

/-- From the parent upward the text of the child stands behind the old text of the parent. -/
theorem textContent_inside (hin : tree.Inside parent id) : ∃ front back,
    tree.textContent id = front ++ tree.textContent parent ++ back ∧
    after.textContent id = front ++ (tree.textContent parent ++ tree.ownText child) ++ back := by
  induction hin with
  | refl => exact ⟨"", "", by simp, by simp [h.textContent_parent]⟩
  | tail hin hp ih =>
    rw [← (h.ownText_inside hin).1, ← (h.ownText_inside hin).2] at ih
    exact h.gains_above hin hp ih

end Joins

/-- Reading the text of a node ends, and gives the contents of the texts below it in document order.
A successful append puts the text of the child behind that of the parent, in one piece, and leaves
the text of every node that is neither the parent nor above it as it was. -/
theorem Reachable.text_content (hr : tree.Reachable) :
    (∀ id, tree.ReadsText id (tree.textContent id)) ∧
      ∀ parent child id after, tree.append parent child = (.ok id, after) →
        tree.TextAppended after parent child := by
  have f := hr.forest
  refine ⟨f.readsText, fun parent child id after ha => ?_⟩
  obtain ⟨hc, rfl, rfl⟩ := append_eq_ok_iff.mp ha
  have houtside : ∀ other, other ≠ parent → other ∉ tree.ancestors parent →
      ¬ tree.Inside parent other := by
    intro other hne hline hin
    rcases List.mem_cons.mp (f.inSubtree_iff.mpr hin) with he | hm
    · exact hne he
    · exact hline hm
  have h : tree.Joins (tree.link parent id) parent id := by
    obtain ⟨-, -, -, hne, hline⟩ := checkAppend_eq_ok.mp hc
    exact ⟨hr.appended ha, f.adopted_link hc, houtside id hne hline⟩
  constructor
  case here => exact h.textContent_parent
  case elsewhere => exact fun other hne hline => h.textContent_eq (houtside other hne hline)
  case above => exact fun other hm => h.textContent_inside (f.mem_ancestors_iff.mp hm).inside

/-- A detached subtree with texts on two levels is joined between two texts. -/
theorem text_content_of_joined :
    let tree := Tree.grow [.appendElement .root "a" [], .appendElement ⟨1⟩ "b" [],
      .appendText ⟨1⟩ "z", .appendText ⟨2⟩ "x", .createElement "c", .appendText ⟨5⟩ "y",
      .createComment "comment", .append ⟨5⟩ ⟨7⟩]
    let after := (tree.append ⟨2⟩ ⟨5⟩).2
    tree.Reachable ∧ tree.append ⟨2⟩ ⟨5⟩ = (.ok ⟨5⟩, after) ∧ tree.ReadsText ⟨1⟩ "xz" ∧
      after.textContent ⟨2⟩ = "xy" := by
  intro tree after
  have hr : tree.Reachable := ⟨_, rfl⟩
  have ha : tree.append ⟨2⟩ ⟨5⟩ = (.ok ⟨5⟩, after) := rfl
  obtain ⟨hreads, happends⟩ := hr.text_content
  have hold : tree.textContent ⟨1⟩ = "xz" := by decide
  have hparent : tree.textContent ⟨2⟩ = "x" := by decide
  have hchild : tree.ownText ⟨5⟩ = "y" := by decide
  refine ⟨hr, ha, hold ▸ hreads ⟨1⟩, ?_⟩
  rw [(happends ⟨2⟩ ⟨5⟩ ⟨5⟩ after ha).here, hparent, hchild]
  rfl

end Tree

end TreeQuery
