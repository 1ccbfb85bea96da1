import TreeQuery.Proofs.Tree.Edit
import TreeQuery.Proofs.Tree.Route

/-! The links of every reachable tree form an ordered forest.
The invariant speaks of the lists of children, which the five links of a node only encode. -/
namespace TreeQuery

namespace Tree

/-- The links encode the lists of children `kids`, and parents lead upward to an end. -/
structure Forest (tree : Tree) (kids : NodeId → List NodeId) : Prop where
  first : ∀ p, tree.firstChild? p = (kids p).head?
  last : ∀ p, tree.lastChild? p = (kids p).getLast?
  parent : ∀ {p c}, tree.parent? c = some p ↔ c ∈ kids p
  chain : ∀ p, Chained tree.prevSibling? tree.nextSibling? (kids p)
  alone : ∀ {c}, tree.parent? c = none →
    tree.prevSibling? c = none ∧ tree.nextSibling? c = none
  holder : ∀ {p c}, tree.parent? c = some p →
    ∃ node, tree.node? p = some node ∧ node.isContainer = true
  line : ∀ id, ∃ line, Route tree.parent? (tree.parent? id) line
  document : ∀ {id node}, tree.node? id = some node → (node.content = .document ↔ id = .root)
  top : tree.parent? .root = none
  ground : tree.contains .root = true

namespace Forest

variable {tree : Tree} {kids : NodeId → List NodeId}

theorem contains_of_parent? {p c : NodeId} (h : tree.parent? c = some p) :
    tree.contains c = true := by
  obtain ⟨node, hn, -⟩ := Option.bind_eq_some_iff.mp h
  exact contains_of_node? hn

theorem contains_kid (f : Forest tree kids) {p c : NodeId} (h : c ∈ kids p) :
    tree.contains c = true :=
  contains_of_parent? (f.parent.mpr h)

theorem kid_unique (f : Forest tree kids) {p q c : NodeId} (hp : c ∈ kids p) (hq : c ∈ kids q) :
    p = q :=
  Option.some.inj ((f.parent.mpr hp).symm.trans (f.parent.mpr hq))

theorem children_eq (f : Forest tree kids) : tree.children = kids := by
  funext p
  rw [children]
  rw [f.first]
  exact follow_of_route (f.chain p).route fun c hc => f.contains_kid hc

theorem contains_of_holds (f : Forest tree kids) {p c : NodeId} (h : tree.parent? c = some p) :
    tree.contains p = true := by
  obtain ⟨node, hn, -⟩ := f.holder h
  exact contains_of_node? hn

theorem route_ancestors (f : Forest tree kids) (id : NodeId) :
    Route tree.parent? (tree.parent? id) (tree.ancestors id) := by
  obtain ⟨line, hl⟩ := f.line id
  have hv : ∀ a ∈ line, tree.contains a = true := by
    intro a ha
    rcases hl.reached ha with h | ⟨b, h⟩
    · exact f.contains_of_holds h
    · exact f.contains_of_holds h
  rw [ancestors]
  rw [follow_of_route hl hv]
  exact hl

theorem start : Forest .empty fun _ => [] := by
  have hn : ∀ {id node}, Tree.empty.node? id = some node → id = .root ∧ node = .document := by
    rintro ⟨index⟩ node h
    cases index with
    | zero => exact ⟨rfl, (Option.some.inj h).symm⟩
    | succ index => cases h
  have hf : ∀ {field : Node → Option NodeId} (_ : field .document = none) (id : NodeId),
      (Tree.empty.node? id).bind field = none := by
    intro field hd id
    cases h : Tree.empty.node? id with
    | none => rfl
    | some node => rw [(hn h).2, Option.bind_some, hd]
  have hp : ∀ id, (Tree.empty.node? id).bind Node.parent = none := hf rfl
  constructor
  case first => exact hf rfl
  case last => exact hf rfl
  case parent =>
    intro p c
    simp [parent?, hp]
  case chain =>
    refine fun p => ⟨?_⟩
    intro front c back h
    exact absurd h (List.append_ne_nil_of_right_ne_nil front (List.cons_ne_nil c back)).symm
  case alone =>
    intro c _
    exact ⟨hf rfl c, hf rfl c⟩
  case holder =>
    intro p c h
    exact absurd ((hp c).symm.trans h) nofun
  case line =>
    intro id
    refine ⟨[], ?_⟩
    rw [parent?, hp id]
    exact .stop
  case document =>
    intro id node h
    obtain ⟨rfl, rfl⟩ := hn h
    exact ⟨fun _ => rfl, fun _ => rfl⟩
  case top => exact hp _
  case ground => rfl

theorem link_of_extends {after : Tree} (h : Extends after tree) {field : Node → Option NodeId}
    (hf : ∀ node, field node.frame = field node) (hn : ∀ node, node.Fresh → field node = none)
    (id : NodeId) : (after.node? id).bind field = (tree.node? id).bind field := by
  rcases h id with h | ⟨ht, node, ha, hfresh⟩
  · have hb := congrArg (Option.bind · field) h
    simpa only [Option.bind_map, Function.comp_def, hf] using hb
  · rw [ht, ha, Option.bind_some, hn node hfresh, Option.bind_none]

theorem links_of_extends {after : Tree} (h : Extends after tree) :
    after.parent? = tree.parent? ∧ after.firstChild? = tree.firstChild? ∧
      after.lastChild? = tree.lastChild? ∧ after.prevSibling? = tree.prevSibling? ∧
      after.nextSibling? = tree.nextSibling? := by
  have hframe := Node.frame_links
  refine ⟨funext ?_, funext ?_, funext ?_, funext ?_, funext ?_⟩
  · exact link_of_extends h (fun node => (hframe node).1) fun _ hn => hn.unlinked.1
  · exact link_of_extends h (fun node => (hframe node).2.1) fun _ hn => hn.unlinked.2.1
  · exact link_of_extends h (fun node => (hframe node).2.2.1) fun _ hn => hn.unlinked.2.2.1
  · exact link_of_extends h (fun node => (hframe node).2.2.2.1) fun _ hn => hn.unlinked.2.2.2.1
  · exact link_of_extends h (fun node => (hframe node).2.2.2.2) fun _ hn => hn.unlinked.2.2.2.2

theorem node?_of_extends {after : Tree} (h : Extends after tree) {id : NodeId} {node : Node}
    (hn : tree.node? id = some node) :
    ∃ other, after.node? id = some other ∧ other.frame = node.frame := by
  rcases h id with h | ⟨ht, _⟩
  · rw [hn] at h
    exact Option.map_eq_some_iff.mp h
  · cases ht.symm.trans hn

theorem extend {after : Tree} (f : Forest tree kids) (h : Extends after tree) :
    Forest after kids := by
  obtain ⟨hparent, hfirst, hlast, hprev, hnext⟩ := links_of_extends h
  constructor
  case first =>
    rw [hfirst]
    exact f.first
  case last =>
    rw [hlast]
    exact f.last
  case parent =>
    rw [hparent]
    exact f.parent
  case chain =>
    rw [hprev, hnext]
    exact f.chain
  case alone =>
    rw [hparent, hprev, hnext]
    exact f.alone
  case holder =>
    rw [hparent]
    intro p c hp
    obtain ⟨node, hn, hc⟩ := f.holder hp
    obtain ⟨other, ho, hfr⟩ := node?_of_extends h hn
    exact ⟨other, ho, by rw [← Node.frame_isContainer, hfr, Node.frame_isContainer, hc]⟩
  case line =>
    rw [hparent]
    exact f.line
  case document =>
    intro id node hn
    rcases h id with h | ⟨ht, new, hnew, hfresh⟩
    · rw [hn] at h
      obtain ⟨old, ho, hfr⟩ := Option.map_eq_some_iff.mp h.symm
      rw [← Node.frame_content_eq_document, ← hfr, Node.frame_content_eq_document]
      exact f.document ho
    · cases hn.symm.trans hnew
      refine ⟨fun hd => absurd hd hfresh.content, fun hr => ?_⟩
      have hg := f.ground
      rw [contains, ← hr, ht] at hg
      cases hg
  case top =>
    rw [hparent]
    exact f.top
  case ground =>
    obtain ⟨node, hn⟩ := Option.isSome_iff_exists.mp f.ground
    obtain ⟨other, ho, -⟩ := node?_of_extends h hn
    exact contains_of_node? ho

section Link

variable {parent child : NodeId}

private theorem bind_ite {node? : Option Node} {value : Option NodeId}
    {field : Node → Option NodeId} {c : Prop} [Decidable c] (h : c → node?.isSome = true) :
    (node?.bind fun node => if c then value else field node) =
      if c then value else node?.bind field := by
  by_cases hc : c
  · obtain ⟨node, rfl⟩ := Option.isSome_iff_exists.mp (h hc)
    simp [hc]
  · simp [hc]

private theorem bind_link (field : Node → Option NodeId) (id : NodeId) :
    ((tree.link parent child).node? id).bind field =
      (tree.node? id).bind fun node => field (tree.relinked parent child id node) := by
  rw [node?_link, Option.bind_map]
  rfl

theorem parent?_link (hc : tree.contains child = true) (id : NodeId) :
    (tree.link parent child).parent? id = if child = id then some parent else tree.parent? id :=
  (bind_link Node.parent id).trans (bind_ite fun h => h ▸ hc)

theorem prevSibling?_link (hc : tree.contains child = true) (id : NodeId) :
    (tree.link parent child).prevSibling? id =
      if child = id then tree.lastChild? parent else tree.prevSibling? id :=
  (bind_link Node.prevSibling id).trans (bind_ite fun h => h ▸ hc)

theorem lastChild?_link (hp : tree.contains parent = true) (id : NodeId) :
    (tree.link parent child).lastChild? id =
      if parent = id then some child else tree.lastChild? id :=
  (bind_link Node.lastChild id).trans (bind_ite fun h => h ▸ hp)

theorem firstChild?_link (hp : tree.contains parent = true) (id : NodeId) :
    (tree.link parent child).firstChild? id =
      if parent = id ∧ tree.lastChild? parent = none then some child
      else tree.firstChild? id :=
  (bind_link Node.firstChild id).trans (bind_ite fun h => h.1 ▸ hp)

theorem nextSibling?_link (f : Forest tree kids) (id : NodeId) :
    (tree.link parent child).nextSibling? id =
      if tree.lastChild? parent = some id then some child else tree.nextSibling? id := by
  refine (bind_link Node.nextSibling id).trans (bind_ite fun h => ?_)
  rw [f.last] at h
  exact f.contains_kid (List.mem_of_getLast? h)

/-- The lists of children with one child more. -/
def adopt (kids : NodeId → List NodeId) (parent child : NodeId) : NodeId → List NodeId :=
  Function.update kids parent (kids parent ++ [child])

theorem mem_adopt {p c : NodeId} :
    c ∈ adopt kids parent child p ↔ c ∈ kids p ∨ p = parent ∧ c = child := by
  by_cases hp : p = parent
  · subst hp
    simp [adopt]
  · simp [adopt, hp]

theorem first_link (f : Forest tree kids) (hp : tree.contains parent = true) (p : NodeId) :
    (tree.link parent child).firstChild? p = (adopt kids parent child p).head? := by
  rw [firstChild?_link hp, f.first, f.last]
  by_cases hpp : parent = p
  · subst hpp
    rw [adopt, Function.update_self]
    cases kids parent with
    | nil => simp
    | cons first rest => simp
  · rw [adopt, Function.update_of_ne (Ne.symm hpp), if_neg fun h => hpp h.1]

theorem last_link (f : Forest tree kids) (hp : tree.contains parent = true) (p : NodeId) :
    (tree.link parent child).lastChild? p = (adopt kids parent child p).getLast? := by
  rw [lastChild?_link hp, f.last]
  by_cases hpp : parent = p
  · subst hpp
    rw [adopt, Function.update_self, if_pos rfl, List.getLast?_concat]
  · rw [adopt, Function.update_of_ne (Ne.symm hpp), if_neg hpp]

theorem parent_link (f : Forest tree kids) (hc : tree.contains child = true)
    (halone : tree.parent? child = none) {p c : NodeId} :
    (tree.link parent child).parent? c = some p ↔ c ∈ adopt kids parent child p := by
  rw [parent?_link hc, mem_adopt, ← f.parent]
  by_cases hcc : child = c
  · subst hcc
    simp [halone, eq_comm]
  · simp [hcc, Ne.symm hcc]

theorem chain_link (f : Forest tree kids) (hc : tree.contains child = true)
    (halone : tree.parent? child = none) (p : NodeId) :
    Chained (tree.link parent child).prevSibling? (tree.link parent child).nextSibling?
      (adopt kids parent child p) := by
  have hnew : ∀ q, child ∉ kids q := by
    intro q hm
    exact absurd ((f.parent.mpr hm).symm.trans halone) nofun
  have hprev : ∀ id ∈ kids p, (tree.link parent child).prevSibling? id = tree.prevSibling? id := by
    intro id hm
    have hne : child ≠ id := fun he => hnew p (he ▸ hm)
    rw [prevSibling?_link hc, if_neg hne]
  by_cases hp : p = parent
  · subst hp
    rw [adopt, Function.update_self]
    have hback : (tree.link p child).prevSibling? child = (kids p).getLast? := by
      rw [prevSibling?_link hc, if_pos rfl, f.last]
    have hforth : (tree.link p child).nextSibling? child = none := by
      rw [f.nextSibling?_link, f.last, if_neg fun hl => hnew p (List.mem_of_getLast? hl)]
      exact (f.alone halone).2
    apply (f.chain p).concat hback hforth hprev
    intro id _
    rw [f.nextSibling?_link, f.last]
  · rw [adopt, Function.update_of_ne hp]
    refine (f.chain p).congr fun id hm => ⟨hprev id hm, ?_⟩
    rw [f.nextSibling?_link, f.last]
    exact if_neg fun hl => hp (f.kid_unique hm (List.mem_of_getLast? hl))

theorem alone_link (f : Forest tree kids) (hc : tree.contains child = true) {c : NodeId}
    (h : (tree.link parent child).parent? c = none) :
    (tree.link parent child).prevSibling? c = none ∧
      (tree.link parent child).nextSibling? c = none := by
  rw [parent?_link hc] at h
  by_cases hcc : child = c
  · rw [if_pos hcc] at h
    exact absurd h nofun
  · rw [if_neg hcc] at h
    have hlast : (kids parent).getLast? ≠ some c := by
      intro hl
      exact absurd (h.symm.trans (f.parent.mpr (List.mem_of_getLast? hl))) nofun
    rw [prevSibling?_link hc, if_neg hcc, f.nextSibling?_link, f.last, if_neg hlast]
    exact f.alone h

theorem line_link (f : Forest tree kids) (hc : tree.contains child = true)
    (hne : child ≠ parent) (hline : child ∉ tree.ancestors parent) (id : NodeId) :
    ∃ line, Route (tree.link parent child).parent? ((tree.link parent child).parent? id) line := by
  have hparent : ∀ id, (tree.link parent child).parent? id =
      if child = id then some parent else tree.parent? id := parent?_link hc
  have htop : Route (tree.link parent child).parent? (some parent)
      (parent :: tree.ancestors parent) := by
    apply Route.move
    rw [hparent, if_neg hne]
    apply (f.route_ancestors parent).congr
    intro a ha
    have hca : child ≠ a := fun he => hline (he ▸ ha)
    rw [hparent, if_neg hca]
  have hall : ∀ {start line}, Route tree.parent? start line →
      ∃ line, Route (tree.link parent child).parent? start line := by
    intro start line h
    induction h with
    | stop => exact ⟨[], .stop⟩
    | @move a line _ ih =>
      by_cases ha : child = a
      · subst ha
        refine ⟨child :: parent :: tree.ancestors parent, .move ?_⟩
        rw [hparent, if_pos rfl]
        exact htop
      · obtain ⟨line, hl⟩ := ih
        refine ⟨a :: line, .move ?_⟩
        rw [hparent, if_neg ha]
        exact hl
  rw [hparent]
  by_cases ha : child = id
  · rw [if_pos ha]
    exact ⟨_, htop⟩
  · rw [if_neg ha]
    exact hall (f.route_ancestors id)

/-- A checked append keeps the forest and makes the new child the last one of its parent. -/
theorem link (f : Forest tree kids) (h : tree.checkAppend parent child = .ok ()) :
    Forest (tree.link parent child) (adopt kids parent child) := by
  obtain ⟨⟨holder, hp, hh⟩, ⟨node, hn, hnp⟩, hroot, hne, hline⟩ := checkAppend_eq_ok.mp h
  have hpc := contains_of_node? hp
  have hc := contains_of_node? hn
  have halone : tree.parent? child = none := by
    rw [parent?, hn, Option.bind_some, hnp]
  have hnode : ∀ {id node}, tree.node? id = some node →
      (tree.link parent child).node? id = some (tree.relinked parent child id node) := by
    intro id node hn
    rw [node?_link, hn, Option.map_some]
  constructor
  case first => exact f.first_link hpc
  case last => exact f.last_link hpc
  case parent => exact f.parent_link hc halone
  case chain => exact f.chain_link hc halone
  case alone => exact f.alone_link hc
  case holder =>
    intro p c hpar
    rw [parent?_link hc] at hpar
    by_cases hcc : child = c
    · rw [if_pos hcc] at hpar
      cases hpar
      exact ⟨_, hnode hp, hh⟩
    · rw [if_neg hcc] at hpar
      obtain ⟨node, hn, hcont⟩ := f.holder hpar
      exact ⟨_, hnode hn, hcont⟩
  case line => exact f.line_link hc hne hline
  case document =>
    intro id node hn
    rw [node?_link] at hn
    obtain ⟨old, ho, rfl⟩ := Option.map_eq_some_iff.mp hn
    have hd : old.content = .document ↔ id = .root := f.document ho
    exact hd
  case top =>
    rw [parent?_link hc, if_neg hroot]
    exact f.top
  case ground =>
    obtain ⟨node, hn⟩ := Option.isSome_iff_exists.mp f.ground
    exact contains_of_node? (hnode hn)

end Link

theorem edit {after : Tree} (f : Forest tree kids) (h : Edit tree after) :
    ∃ kids, Forest after kids := by
  cases h with
  | intern name => exact ⟨kids, f.extend fun _ => .inl rfl⟩
  | push node _ hn => exact ⟨kids, f.extend (extends_push tree hn)⟩
  | set id node changed hn hf => exact ⟨kids, f.extend (extends_modify hn hf)⟩
  | link parent child hc => exact ⟨adopt kids parent child, f.link hc⟩

end Forest

/-- The lists of children are those that the walk along the siblings finds. -/
theorem Reachable.forest {tree : Tree} (h : tree.Reachable) : Forest tree tree.children := by
  obtain ⟨kids, f⟩ : ∃ kids, Forest tree kids := by
    refine Reachable.induct (P := fun tree => ∃ kids, Forest tree kids) ⟨_, Forest.start⟩ ?_ h
    rintro before after he ⟨kids, f⟩
    exact f.edit he
  rw [f.children_eq]
  exact f

end Tree

end TreeQuery
