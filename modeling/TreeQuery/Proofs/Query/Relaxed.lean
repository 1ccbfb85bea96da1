import TreeQuery.Proofs.Query.Scope

/-! Selectors that ask for less.
One selector is looser than another if it has as many steps, no step asks for more than its
counterpart, and every combinator stands for all that its counterpart stands for. An assignment of
nodes to the steps of the stricter selector is then one for the looser selector too. -/
namespace TreeQuery

/-- The combinators that stand for all that another one stands for. -/
inductive Combinator.Relaxes : Combinator → Combinator → Prop where
  | same (combinator : Combinator) : Relaxes combinator combinator
  | descendant_child : Relaxes .descendant .child
  | none_child : Relaxes .none .child
  | descendant_none : Relaxes .descendant .none
  | none_descendant : Relaxes .none .descendant
  | siblings : Relaxes .subsequentSibling .nextSibling

/-- The first step asks for nothing that the second does not ask for. Combinators do not count. -/
structure Step.Relaxes (loose strict : Step) : Prop where
  element : loose.element = none ∨ loose.element = strict.element
  id : loose.id = none ∨ loose.id = strict.id
  classes : ∀ name ∈ loose.classes, name ∈ strict.classes
  tests : ∀ test ∈ loose.tests, test ∈ strict.tests
  pseudoClasses : ∀ name ∈ loose.pseudoClasses, name ∈ strict.pseudoClasses
  pseudoElements : ∀ name ∈ loose.pseudoElements, name ∈ strict.pseudoElements

/-- The combinator of the first step relates it to nothing and may be any. -/
structure Selector.Relaxes (loose strict : Selector) : Prop where
  steps : List.Forall₂ Step.Relaxes loose.steps strict.steps
  combinators : List.Forall₂ (fun wanted given : Step =>
    wanted.combinator.Relaxes given.combinator) loose.steps.tail strict.steps.tail

theorem Step.Relaxes.refl (step : Step) : step.Relaxes step :=
  ⟨.inr rfl, .inr rfl, fun _ h => h, fun _ h => h, fun _ h => h, fun _ h => h⟩

namespace Setting

variable {setting other : Setting} {id left right : NodeId} {nodes : List NodeId}

theorem Satisfies.relax {loose strict : Step} (h : setting.Satisfies strict id)
    (hr : loose.Relaxes strict) : setting.Satisfies loose id := by
  obtain ⟨tag, ht, hwanted⟩ := h.tag
  constructor
  · refine ⟨tag, ht, fun wanted hw => ?_⟩
    rcases hr.element with hn | he
    · exact absurd (hn.symm.trans hw) nofun
    · exact hwanted wanted (he ▸ hw)
  · intro wanted hw
    rcases hr.id with hn | he
    · exact absurd (hn.symm.trans hw) nofun
    · exact h.ident wanted (he ▸ hw)
  · exact fun name hn => h.classes name (hr.classes name hn)
  · exact fun test ht => h.tests test (hr.tests test ht)
  · exact fun name hn => h.pseudoClasses name (hr.pseudoClasses name hn)
  · exact fun name hn => h.pseudoElements name (hr.pseudoElements name hn)

theorem Joined.relax {loose strict : Combinator} (h : setting.Joined strict left right)
    (hr : loose.Relaxes strict) : setting.Joined loose left right := by
  unfold Joined at *
  cases ho : setting.options.combinators with
  | asDescendant =>
    rw [ho] at h
    exact h
  | asWritten =>
    rw [ho] at h
    cases hr with
    | same => exact h
    | descendant_child => exact .of_parent? h
    | none_child => exact .of_parent? h
    | descendant_none => exact h
    | none_descendant => exact h
    | siblings => exact Tree.Adjacent.earlier h

/-- The nodes assigned to some steps suit other steps, one by one, wherever they satisfy these
steps and the combinators of these steps. -/
theorem Assignment.transfer {steps others : List Step} (h : setting.Assignment steps nodes)
    (hsteps : List.Forall₂ (fun wanted given => ∀ id, setting.Satisfies given id →
      other.Satisfies wanted id) others steps)
    (hjoined : List.Forall₂ (fun wanted given : Step => ∀ left right,
      setting.Joined given.combinator left right → other.Joined wanted.combinator left right)
      others.tail steps.tail) : other.Assignment others nodes := by
  obtain ⟨hs, hj⟩ := h
  constructor
  · have hlen := hsteps.length_eq.trans hs.length_eq
    refine List.forall₂_iff_get.mpr ⟨hlen, fun i hi hn => ?_⟩
    have hmid : i < steps.length := hsteps.length_eq ▸ hi
    exact hsteps.get hi hmid _ (hs.get hmid hn)
  · intro i wanted left right hw hl hr
    rw [← List.getElem?_tail] at hw
    obtain ⟨hi, rfl⟩ := List.getElem?_eq_some_iff.mp hw
    have hmid : i < steps.tail.length := hjoined.length_eq ▸ hi
    refine hjoined.get hi hmid left right (hj ?_ hl hr)
    rw [← List.getElem?_tail]
    exact List.getElem?_eq_getElem hmid

theorem selectorHolds_transfer (f : setting.tree.Forest setting.tree.children)
    (g : other.tree.Forest other.tree.children) {front back : Selector}
    (h : ∀ nodes, setting.Assignment front.steps nodes → other.Assignment back.steps nodes)
    (hm : setting.selectorHolds true front id = true) :
    other.selectorHolds true back id = true := by
  rw [selectorHolds_iff f, leftFound_iff, ← front.steps_eq] at hm
  rw [selectorHolds_iff g, leftFound_iff, ← back.steps_eq]
  obtain ⟨nodes, ha, hl⟩ := hm
  exact ⟨nodes, h nodes ha, hl⟩

theorem selectorHolds_relax (f : setting.tree.Forest setting.tree.children)
    {loose strict : Selector} (hr : loose.Relaxes strict)
    (hm : setting.selectorHolds true strict id = true) :
    setting.selectorHolds true loose id = true := by
  refine selectorHolds_transfer f f (fun nodes ha => ha.transfer ?_ ?_) hm
  · exact hr.steps.imp fun _ _ h _ hs => hs.relax h
  · exact hr.combinators.imp fun _ _ h _ _ hj => hj.relax h

/-- What satisfies a selector that only goes up satisfies it with every combinator taken for a
descendant combinator. -/
theorem selectorHolds_asDescendant {tree : Tree} (f : tree.Forest tree.children) {fold : Bool}
    {pseudo : PseudoRules} {selector : Selector}
    (hu : ∀ step ∈ selector.steps.tail, Combinator.Relaxes .descendant step.combinator)
    (hm : selectorHolds ⟨tree, ⟨.asWritten, fold⟩, pseudo⟩ true selector id = true) :
    selectorHolds ⟨tree, ⟨.asDescendant, fold⟩, pseudo⟩ true selector id = true := by
  refine selectorHolds_transfer f f (fun nodes ha => ha.transfer ?_ ?_) hm
  · refine List.forall₂_same.mpr fun step _ id hs => ?_
    exact ⟨hs.tag, hs.ident, hs.classes, hs.tests, hs.pseudoClasses, hs.pseudoElements⟩
  · refine List.forall₂_same.mpr fun step hstep left right hj => ?_
    exact joined_descendant.mp (hj.relax (hu step hstep))

theorem listHolds_singleton (selector : Selector) (id : NodeId) :
    setting.listHolds ⟨[selector]⟩ id = setting.selectorHolds true selector id := by
  rw [listHolds, List.any_cons, List.any_nil, Bool.or_false]

end Setting

namespace Session

variable {session : Session} {id : NodeId}

/-- The nodes that the next search judges: those found, or at first those below the start nodes. -/
def Judges (session : Session) (id : NodeId) : Prop :=
  if session.started then id ∈ session.found.toList
  else ∃ root ∈ session.found.toList, session.setting.tree.Below id root

theorem mem_findList_iff (hr : session.setting.tree.Reachable) {list : SelectorList}
    {after : Session} (h : session.findList list = .ok after) :
    id ∈ after.found.toList ↔ session.Judges id ∧ session.setting.listHolds list id = true := by
  rw [session.findList_of_searchable (findList_ok h).1] at h
  cases h
  unfold Judges
  cases session.started with
  | true =>
    simp only [if_true]
    rw [ArrivalSet.toList_ofList, List.mem_eraseDups, List.mem_filter]
  | false => exact Setting.mem_narrow_iff_below hr.forest

/-- A looser selector holds wherever the stricter one does, so that a search for it finds all that a
search for the stricter one finds. A selector that only goes up holds for no fewer nodes when every
combinator is taken for a descendant combinator. -/
theorem findList_of_relaxed (session : Session) (hr : session.setting.tree.Reachable)
    {loose strict : Selector} (h : loose.Relaxes strict) :
    (∀ id, session.setting.selectorHolds true strict id = true →
        session.setting.selectorHolds true loose id = true) ∧
      (SelectorList.supported ⟨[strict]⟩ = .ok () → SelectorList.supported ⟨[loose]⟩ = .ok () →
        ∃ fewer more, session.findList ⟨[strict]⟩ = .ok fewer ∧
          session.findList ⟨[loose]⟩ = .ok more ∧
          ∀ id ∈ fewer.found.toList, id ∈ more.found.toList) ∧
      ∀ (fold : Bool) (selector : Selector), (∀ step ∈ selector.steps.tail,
          step.combinator = .child ∨ step.combinator = .descendant ∨ step.combinator = .none) →
        ∀ id, Setting.selectorHolds
            ⟨session.setting.tree, ⟨.asWritten, fold⟩, session.setting.pseudo⟩ true selector id =
              true →
          Setting.selectorHolds
            ⟨session.setting.tree, ⟨.asDescendant, fold⟩, session.setting.pseudo⟩ true selector id =
              true := by
  have hholds : ∀ id, session.setting.selectorHolds true strict id = true →
      session.setting.selectorHolds true loose id = true :=
    fun id => Setting.selectorHolds_relax hr.forest h
  refine ⟨hholds, fun hstrict hloose => ?_, fun fold selector hu id => ?_⟩
  · have hfewer := session.findList_of_searchable (SelectorList.supported_eq_ok_iff.mp hstrict)
    have hmore := session.findList_of_searchable (SelectorList.supported_eq_ok_iff.mp hloose)
    refine ⟨_, _, hfewer, hmore, fun id hid => ?_⟩
    obtain ⟨hj, hl⟩ := (mem_findList_iff hr hfewer).mp hid
    rw [Setting.listHolds_singleton] at hl
    refine (mem_findList_iff hr hmore).mpr ⟨hj, ?_⟩
    rw [Setting.listHolds_singleton]
    exact hholds id hl
  · refine Setting.selectorHolds_asDescendant hr.forest fun step hs => ?_
    rcases hu step hs with hc | hc | hc
    · exact hc ▸ .descendant_child
    · exact hc ▸ .same .descendant
    · exact hc ▸ .descendant_none

/-- Of two elements inside one another the inner one is found by `* > *:empty`, and so by `* *`. -/
theorem findList_of_relaxed_nested :
    let tree := Tree.grow [.appendElement .root "a" [], .appendElement ⟨1⟩ "a" []]
    let strict : Selector := ⟨[{}, { pseudoClasses := ["empty"], combinator := .child }], nofun⟩
    let loose : Selector := ⟨[{}, { combinator := .descendant }], nofun⟩
    tree.Reachable ∧ loose.Relaxes strict ∧ SelectorList.supported ⟨[strict]⟩ = .ok () ∧
      SelectorList.supported ⟨[loose]⟩ = .ok () ∧
      ∃ fewer more, (ofRoot tree).findList ⟨[strict]⟩ = .ok fewer ∧
        (ofRoot tree).findList ⟨[loose]⟩ = .ok more ∧
        ⟨2⟩ ∈ fewer.found.toList ∧ ⟨2⟩ ∈ more.found.toList := by
  intro tree strict loose
  have hr : tree.Reachable := ⟨_, rfl⟩
  have hrelaxes : loose.Relaxes strict :=
    ⟨.cons (.refl _) (.cons ⟨.inl rfl, .inl rfl, nofun, nofun, nofun, nofun⟩ .nil),
      .cons .descendant_child .nil⟩
  obtain ⟨-, hfind, -⟩ := (ofRoot tree).findList_of_relaxed hr hrelaxes
  obtain ⟨fewer, more, hf, hm, hsub⟩ := hfind rfl rfl
  have hholds : (ofRoot tree).setting.selectorHolds true strict ⟨2⟩ = true := by
    refine (Setting.selectorHolds_iff hr.forest).mpr ⟨?_, ⟨1⟩, rfl, ?_, trivial⟩
    · exact ⟨⟨_, rfl, nofun⟩, nofun, nofun, nofun, fun _ _ => rfl, nofun⟩
    · exact ⟨⟨_, rfl, nofun⟩, nofun, nofun, nofun, nofun, nofun⟩
  have hroot : (ofRoot tree).found.toList = [.root] := ArrivalSet.toList_ofList _
  have hjudges : (ofRoot tree).Judges ⟨2⟩ := by
    refine ⟨.root, hroot ▸ List.mem_cons_self, ?_⟩
    exact .step (p := ⟨1⟩) rfl (.of_parent? rfl)
  have hfewer : ⟨2⟩ ∈ fewer.found.toList := by
    refine (mem_findList_iff hr hf).mpr ⟨hjudges, ?_⟩
    rw [Setting.listHolds_singleton]
    exact hholds
  exact ⟨hr, hrelaxes, rfl, rfl, fewer, more, hf, hm, hfewer, hsub _ hfewer⟩

end Session

end TreeQuery
