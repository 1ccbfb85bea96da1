import TreeQuery.Proofs.Query.Concurrent
import TreeQuery.Proofs.Query.Run
import TreeQuery.Proofs.Tree.Failure

/-! Queries after a step that failed.
A query sees of a tree what can be read of its nodes. Where all of this is read alike from another
tree, every search takes the same course there, and every session gives the same answers. -/
namespace TreeQuery

theorem tryEach_congr {attempt other : NodeId → Search → Bool × Search} {ids : List NodeId}
    (h : ∀ id ∈ ids, attempt id = other id) : tryEach attempt ids = tryEach other ids := by
  induction ids with
  | nil => rfl
  | cons id ids ih =>
    obtain ⟨hid, hids⟩ := List.forall_mem_cons.mp h
    funext search
    rw [tryEach, tryEach, hid, ih hids]

theorem all_congr_mem {α : Type} {list : List α} {front back : α → Bool}
    (h : ∀ a ∈ list, front a = back a) : list.all front = list.all back := by
  rw [Bool.eq_iff_iff, List.all_eq_true, List.all_eq_true]
  exact forall₂_congr fun a ha => by rw [h a ha]

namespace Tree.ReadsAlike

variable {tree after : Tree} {id : NodeId} (h : tree.ReadsAlike after)

include h

theorem isElement_eq (hid : tree.contains id = true) : after.isElement id = tree.isElement id := by
  rw [isElement, isElement, element?, element?, h.node id hid]

theorem all_tags_differ {ids : List NodeId} (hid : tree.contains id = true)
    (hv : ∀ a ∈ ids, tree.contains a = true) :
    (ids.all fun a => after.tagName? a != after.tagName? id) =
      ids.all fun a => tree.tagName? a != tree.tagName? id :=
  all_congr_mem fun a ha => by rw [h.tagName a (hv a ha), h.tagName id hid]

variable (f : tree.Forest tree.children)

include f

theorem firstOfType_eq (hid : tree.contains id = true) :
    PseudoRules.firstOfType after id = PseudoRules.firstOfType tree id := by
  rw [PseudoRules.firstOfType, h.elementsBefore]
  exact h.all_tags_differ hid fun _ => f.contains_of_mem_elementsBefore

theorem lastOfType_eq (hid : tree.contains id = true) :
    PseudoRules.lastOfType after id = PseudoRules.lastOfType tree id := by
  rw [PseudoRules.lastOfType, h.elementsAfter]
  exact h.all_tags_differ hid fun _ => f.contains_of_mem_elementsAfter

theorem structuralClass_eq (hid : tree.contains id = true) :
    PseudoRules.structuralClass after id = PseudoRules.structuralClass tree id := by
  have hparent : (after.parent? id).any after.isElement = (tree.parent? id).any tree.isElement := by
    rw [h.parent]
    cases hp : tree.parent? id with
    | none => rfl
    | some p => exact h.isElement_eq (f.contains_of_holds hp)
  funext name
  unfold PseudoRules.structuralClass
  simp only [hparent, h.firstElementChild, h.prevElement, h.nextElement, h.firstOfType_eq f hid,
    h.lastOfType_eq f hid]

end Tree.ReadsAlike

theorem Tree.contains_of_isElement {tree : Tree} {id : NodeId} (h : tree.isElement id = true) :
    tree.contains id = true := by
  obtain ⟨element, he⟩ := Option.isSome_iff_exists.mp h
  obtain ⟨node, hn, -⟩ := Option.bind_eq_some_iff.mp he
  exact contains_of_node? hn

namespace PseudoRules

/-- Rules that say of the elements of one tree the same in another one. -/
structure Agree (pseudo : PseudoRules) (tree after : Tree) : Prop where
  classHolds : ∀ id, tree.isElement id = true →
    pseudo.classHolds after id = pseudo.classHolds tree id
  elementHolds : ∀ id, tree.isElement id = true →
    pseudo.elementHolds after id = pseudo.elementHolds tree id

variable {tree after : Tree}

theorem agree_always : always.Agree tree after := ⟨fun _ _ => rfl, fun _ _ => rfl⟩

theorem agree_denying (classes elements : List String) :
    (denying classes elements).Agree tree after :=
  ⟨fun _ _ => rfl, fun _ _ => rfl⟩

theorem agree_structural (h : tree.ReadsAlike after) (f : tree.Forest tree.children) :
    structural.Agree tree after :=
  ⟨fun _ he => h.structuralClass_eq f (Tree.contains_of_isElement he), fun _ _ => rfl⟩

end PseudoRules

namespace Setting

def onto (setting : Setting) (tree : Tree) : Setting := { setting with tree }

section Onto

variable {setting : Setting} {after : Tree} {id : NodeId} (h : setting.tree.ReadsAlike after)
  (f : setting.tree.Forest setting.tree.children)

theorem contains_related (f : setting.tree.Forest setting.tree.children) {combinator : Combinator}
    {other : NodeId} (hm : other ∈ setting.related combinator id) :
    setting.tree.contains other = true := by
  unfold related at hm
  cases hc : setting.options.combinators with
  | asDescendant =>
    rw [hc] at hm
    exact f.contains_ancestor hm
  | asWritten =>
    rw [hc] at hm
    cases combinator with
    | none => exact f.contains_ancestor hm
    | descendant => exact f.contains_ancestor hm
    | child => exact f.contains_of_holds (Option.mem_toList.mp hm)
    | nextSibling => exact f.contains_of_prevElement? (Option.mem_toList.mp hm)
    | subsequentSibling => exact f.contains_of_mem_elementsBefore hm

theorem contains_of_mem_narrow (f : setting.tree.Forest setting.tree.children)
    {roots : List NodeId} {list : SelectorList} (hm : id ∈ (setting.narrow roots list).toList) :
    setting.tree.contains id = true :=
  Tree.contains_of_isElement ((mem_narrow_iff f).mp hm).1

include h

theorem related_onto : (setting.onto after).related = setting.related := by
  funext combinator id
  simp only [related, onto, h.ancestors, h.parent, h.prevElement, h.elementsBefore]

variable (hp : setting.pseudo.Agree setting.tree after)

include hp

theorem stepHolds_onto (hid : setting.tree.contains id = true) (checkTag : Bool) (step : Step) :
    (setting.onto after).stepHolds checkTag step id = setting.stepHolds checkTag step id := by
  have htag : (setting.onto after).tree.tagName? id = setting.tree.tagName? id := h.tagName id hid
  have hvalue : (setting.onto after).tree.attribute? id = setting.tree.attribute? id :=
    funext (h.value id hid)
  rw [stepHolds, stepHolds, htag]
  cases ht : setting.tree.tagName? id with
  | none => rfl
  | some tag =>
    have he : setting.tree.isElement id = true := Tree.isElement_of_tagName? ht
    have hclass : (setting.onto after).pseudo.classHolds (setting.onto after).tree id =
        setting.pseudo.classHolds setting.tree id := hp.classHolds id he
    have helement : (setting.onto after).pseudo.elementHolds (setting.onto after).tree id =
        setting.pseudo.elementHolds setting.tree id := hp.elementHolds id he
    simp only [tagHolds, idHolds, classesHold, testsHold, pseudosHold, hvalue, hclass, helement]
    rfl

include f

theorem leftHolds_onto (left : List Step) (combinator : Combinator) (id : NodeId) :
    (setting.onto after).leftHolds left combinator id = setting.leftHolds left combinator id := by
  induction left generalizing combinator id with
  | nil => rfl
  | cons step left ih =>
    funext search
    rw [leftHolds, leftHolds, related_onto h]
    have hattempt : tryEach (fun candidate search =>
          if (setting.onto after).stepHolds true step candidate then
            (setting.onto after).leftHolds left step.combinator candidate search
          else (false, search)) (setting.related combinator id) =
        tryEach (fun candidate search =>
          if setting.stepHolds true step candidate then
            setting.leftHolds left step.combinator candidate search
          else (false, search)) (setting.related combinator id) := by
      refine tryEach_congr fun candidate hm => ?_
      rw [stepHolds_onto h hp (contains_related f hm), ih]
    dsimp only
    rw [hattempt]

theorem selectorHolds_onto (hid : setting.tree.contains id = true) (checkTag : Bool)
    (selector : Selector) : (setting.onto after).selectorHolds checkTag selector id =
      setting.selectorHolds checkTag selector id := by
  rw [selectorHolds_eq, selectorHolds_eq, stepHolds_onto h hp hid, leftHolds_onto h f hp]

theorem listHolds_onto (hid : setting.tree.contains id = true) (list : SelectorList) :
    (setting.onto after).listHolds list id = setting.listHolds list id :=
  congrArg list.members.any (funext fun member => selectorHolds_onto h f hp hid true member)

theorem narrow_onto (roots : List NodeId) (list : SelectorList) :
    (setting.onto after).narrow roots list = setting.narrow roots list := by
  rw [narrow_eq, narrow_eq]
  refine congrArg ArrivalSet.ofList (List.flatMap_congr fun member _ => ?_)
  rw [filter_candidates, filter_candidates]
  refine List.flatMap_congr fun root _ => ?_
  have hdescendants : (setting.onto after).tree.descendants root = setting.tree.descendants root :=
    congrFun h.descendants root
  rw [hdescendants]
  refine List.filter_congr fun id hm => ?_
  exact selectorHolds_onto h f hp
    (Tree.contains_of_isElement (f.mem_descendants_iff.mp hm).1) true member

end Onto

end Setting

def Request.Agree (request : Request) (tree after : Tree) : Prop :=
  ∀ pseudo, request = .pseudo pseudo → pseudo.Agree tree after

namespace Session

def onto (session : Session) (tree : Tree) : Session :=
  { session with setting := session.setting.onto tree }

structure Movable (session : Session) (tree after : Tree) : Prop where
  here : session.setting.tree = tree
  pseudo : session.setting.pseudo.Agree tree after
  inside : ∀ id ∈ session.found.toList, tree.contains id = true

variable {session : Session} {tree after : Tree} {start : List NodeId}

theorem contains_of_ofNodes (h : ofNodes tree start = .ok session) :
    session = ⟨{ tree }, .ofList start, false, none⟩ ∧ ∀ id ∈ start, tree.contains id = true := by
  rw [ofNodes] at h
  split at h
  · cases h
  · rename_i hnone
    cases h
    refine ⟨rfl, fun id hm => ?_⟩
    simpa using List.find?_eq_none.mp hnone id hm

theorem Starts.movable (h : Starts tree start session) (f : tree.Forest tree.children) :
    session.Movable tree after := by
  have main : ∀ {ids : List NodeId}, (∀ id ∈ ids, tree.contains id = true) →
      Movable ⟨{ tree }, .ofList ids, false, none⟩ tree after := by
    intro ids hv
    refine ⟨rfl, PseudoRules.agree_always, fun id hm => hv id ?_⟩
    rw [ArrivalSet.toList_ofList, List.mem_eraseDups] at hm
    exact hm
  cases h with
  | root => exact main (List.forall_mem_singleton.mpr f.ground)
  | nodes h =>
    obtain ⟨rfl, hv⟩ := contains_of_ofNodes h
    exact main hv

theorem Starts.onto (h : Starts tree start session) (hk : tree.ReadsAlike after) :
    Starts after start (session.onto after) := by
  cases h with
  | root => exact .root
  | nodes h =>
    obtain ⟨rfl, hv⟩ := contains_of_ofNodes h
    have hnone : start.find? (fun id => !after.contains id) = none := by
      refine List.find?_eq_none.mpr fun id hm => ?_
      have hid : after.contains id = true := by
        rw [Tree.contains, hk.node id (hv id hm)]
        exact hv id hm
      simpa using hid
    refine .nodes ?_
    rw [ofNodes, hnone]
    rfl

namespace Movable

variable (hs : session.Movable tree after) (h : tree.ReadsAlike after)
  (f : tree.Forest tree.children)

include hs h f

theorem findList_onto (list : SelectorList) : (session.onto after).findList list =
    (session.findList list).map fun next => next.onto after := by
  obtain ⟨rfl, hp, hv⟩ := hs
  have hnarrow := Setting.narrow_onto h f hp session.found.toList list
  have hfilter : session.found.toList.filter ((session.setting.onto after).listHolds list) =
      session.found.toList.filter (session.setting.listHolds list) :=
    List.filter_congr fun id hm => Setting.listHolds_onto h f hp (hv id hm) list
  rw [findList_eq, findList_eq]
  cases list.supported with
  | error e => rfl
  | ok =>
    simp only [onto, Except.map, hnarrow, hfilter]

theorem find_onto (text : String) : (session.onto after).find text =
    (session.find text).map fun next => next.onto after := by
  rw [find_eq, find_eq]
  cases SelectorList.parse text with
  | error e => rfl
  | ok list => exact hs.findList_onto h f list

theorem answer_onto (request : Request) : (session.onto after).answer request =
    (session.answer request).map fun next => next.onto after := by
  cases request with
  | find text => exact hs.find_onto h f text
  | findList list => exact hs.findList_onto h f list
  | options options => rfl
  | pseudo pseudo => rfl
  | within text =>
    have hinner : Movable { session with started := false, last := none } tree after :=
      ⟨hs.here, hs.pseudo, hs.inside⟩
    exact hinner.find_onto h f text

omit h in
theorem of_findList {list : SelectorList} {next : Session}
    (hn : session.findList list = .ok next) : next.Movable tree after := by
  obtain ⟨rfl, hp, hv⟩ := hs
  rw [session.findList_of_searchable (findList_ok hn).1] at hn
  cases hn
  refine ⟨rfl, hp, fun id hm => ?_⟩
  dsimp only at hm
  split at hm
  · rw [ArrivalSet.toList_ofList, List.mem_eraseDups] at hm
    exact hv id (List.mem_filter.mp hm).1
  · exact Setting.contains_of_mem_narrow f hm

omit h in
theorem of_after {request : Request} (ha : request.Agree tree after) :
    (session.after request).Movable tree after := by
  have kept : ∀ {answer : Except SelectorError Session},
      (∀ next, answer = .ok next → next.Movable tree after) →
        (answer.toOption.getD session).Movable tree after := by
    rintro (e | next) hn
    · exact hs
    · exact hn next rfl
  cases request with
  | find text =>
    rw [Session.after, ask_snd]
    refine kept fun next hn => ?_
    obtain ⟨list, -, hl⟩ := find_ok hn
    exact hs.of_findList f hl
  | findList list =>
    rw [Session.after, askList_snd]
    exact kept fun next hn => hs.of_findList f hn
  | options options => exact ⟨hs.here, hs.pseudo, hs.inside⟩
  | pseudo pseudo => exact ⟨hs.here, ha pseudo rfl, hs.inside⟩
  | within text => exact hs

theorem after_onto (request : Request) :
    (session.onto after).after request = (session.after request).onto after := by
  cases request with
  | find text =>
    rw [Session.after, Session.after, ask_snd, ask_snd, hs.find_onto h f]
    cases session.find text <;> rfl
  | findList list =>
    rw [Session.after, Session.after, askList_snd, askList_snd, hs.findList_onto h f]
    cases session.findList list <;> rfl
  | options options => rfl
  | pseudo pseudo => rfl
  | within text => rfl

theorem run_onto {requests : List Request} (ha : ∀ request ∈ requests, request.Agree tree after) :
    (session.onto after).run requests = (session.run requests).onto after ∧
      (session.run requests).Movable tree after := by
  induction requests generalizing session with
  | nil => exact ⟨rfl, hs⟩
  | cons request requests ih =>
    obtain ⟨hrequest, hrequests⟩ := List.forall_mem_cons.mp ha
    obtain ⟨hrun, hlast⟩ := ih (hs.of_after f hrequest) hrequests
    refine ⟨?_, hlast⟩
    rw [run, List.foldl_cons, hs.after_onto h f request]
    exact hrun

end Movable

end Session

theorem select_onto {tree after : Tree} (h : tree.ReadsAlike after)
    (f : tree.Forest tree.children) (text : String) : select after text = select tree text := by
  have hroot : (Session.ofRoot tree).Movable tree after := Session.Starts.root.movable f
  have hfind : (Session.ofRoot after).find text =
      ((Session.ofRoot tree).find text).map fun next => next.onto after := hroot.find_onto h f text
  rw [select, select, hfind]
  cases (Session.ofRoot tree).find text <;> rfl

theorem Pool.KeepsOrder.select_onto {pool : Pool} (hk : pool.KeepsOrder) (setting : Setting)
    {after : Tree} (h : setting.tree.ReadsAlike after)
    (f : setting.tree.Forest setting.tree.children)
    (hp : setting.pseudo.Agree setting.tree after) (text : String) :
    pool.select (setting.onto after) text = pool.select setting text := by
  unfold Pool.select
  simp only [hk.narrow_eq, Setting.narrow_onto h f hp]

/-- What a failure leaves undisturbed, for whoever reads the tree or asks queries of it. -/
structure Tree.Undisturbed (tree after : Tree) : Prop where
  kept : tree.Kept after
  detached : ∀ link ∈ [Tree.parent?, Tree.firstChild?, Tree.lastChild?, Tree.prevSibling?,
    Tree.nextSibling?], ∀ id other, link after id = some other →
      tree.contains id = true ∧ tree.contains other = true
  reads : tree.ReadsAlike after
  rules : ∀ pseudo : PseudoRules, (pseudo = .always ∨ pseudo = .structural ∨
    ∃ classes elements, pseudo = .denying classes elements) → pseudo.Agree tree after
  sessions : ∀ start session requests, Session.Starts tree start session →
    (∀ request ∈ requests, Request.Agree request tree after) →
      Session.Starts after start (session.onto after) ∧
      (session.onto after).run requests = (session.run requests).onto after ∧
      ∀ request, ((session.run requests).onto after).answer request =
        ((session.run requests).answer request).map fun next => next.onto after
  select : ∀ text, select after text = select tree text
  concurrent : ∀ pool : Pool, pool.KeepsOrder → ∀ options pseudo text,
    PseudoRules.Agree pseudo tree after →
      pool.select ⟨after, options, pseudo⟩ text = pool.select ⟨tree, options, pseudo⟩ text
  many : ∀ pool : Pool, pool.KeepsOrder → ∀ options texts,
    pool.selectMany after options texts = pool.selectMany tree options texts

theorem Tree.Kept.undisturbed {tree after : Tree} (h : tree.Kept after) (hr : tree.Reachable)
    (ha : after.names.Listed) : tree.Undisturbed after := by
  have f := hr.forest
  have hreads := h.readsAlike hr ha
  have hconcurrent : ∀ pool : Pool, pool.KeepsOrder → ∀ options pseudo text,
      PseudoRules.Agree pseudo tree after →
        pool.select ⟨after, options, pseudo⟩ text = pool.select ⟨tree, options, pseudo⟩ text :=
    fun _ hk options pseudo text hp => hk.select_onto ⟨tree, options, pseudo⟩ hreads f hp text
  constructor
  case kept => exact h
  case detached => exact fun _ hm _ _ hl => h.contains_of_link f hm hl
  case reads => exact hreads
  case rules =>
    rintro _ (rfl | rfl | ⟨classes, elements, rfl⟩)
    · exact PseudoRules.agree_always
    · exact PseudoRules.agree_structural hreads f
    · exact PseudoRules.agree_denying classes elements
  case sessions =>
    intro start session requests hs hrequests
    obtain ⟨hrun, hlast⟩ := (hs.movable f).run_onto hreads f hrequests
    exact ⟨hs.onto hreads, hrun, hlast.answer_onto hreads f⟩
  case select => exact select_onto hreads f
  case concurrent => exact hconcurrent
  case many =>
    intro pool hk options texts
    rw [hk.selectMany_eq, hk.selectMany_eq]
    refine List.map_congr_left fun text _ => ?_
    exact hconcurrent pool hk options .always text PseudoRules.agree_always

/-- A step that fails disturbs neither the nodes that were there, nor what is read of them, nor any
query among them; a failing append changes nothing whatever. -/
theorem Growth.harmless_of_error {tree after : Tree} {step : Growth} {e : TreeError}
    (hr : tree.Reachable) (h : step.apply tree = (.error e, after)) :
    tree.Undisturbed after ∧ ∀ parent child, step = .append parent child → after = tree := by
  have hafter : step.next tree = after := congrArg Prod.snd h
  have hlisted : after.names.Listed := (hafter ▸ hr.next step).retagged.names
  refine ⟨(kept_of_error h).undisturbed hr hlisted, ?_⟩
  rintro parent child rfl
  exact Tree.append_error (answer_error h)

/-- An element with a new name and a new attribute is made below a text, which refuses it. -/
theorem Growth.harmless_of_text_parent :
    let tree := Tree.grow [.appendElement .root "a" [("id", "x")], .appendText ⟨1⟩ "text"]
    let step : Growth := .appendElement ⟨2⟩ "b" [("rel", "y")]
    let after := step.next tree
    tree.Reachable ∧ step.apply tree = (.error (.wrongKind .appendTo), after) ∧
      after.size = tree.size + 1 ∧ tree.Undisturbed after ∧
      after.textContent .root = "text" ∧ after.children ⟨1⟩ = [⟨2⟩] := by
  intro tree step after
  have hr : tree.Reachable := ⟨_, rfl⟩
  have h : step.apply tree = (.error (.wrongKind .appendTo), after) := rfl
  obtain ⟨hu, -⟩ := harmless_of_error hr h
  refine ⟨hr, h, rfl, hu, ?_, ?_⟩
  · rw [hu.reads.text]
    decide
  · rw [hu.reads.children]
    rfl

end TreeQuery
