import TreeQuery.Proofs.Query.Correspondence
import TreeQuery.Proofs.Query.Relaxed
import TreeQuery.Proofs.Tree.Retag

/-! Ignoring the case of tags, against writing every tag in lower case.
A comparison that ignores case is one of the lower case forms. Where the tags of a tree and of the
selectors are changed to these forms and nothing else is, every check gives the same answer, at the
target as well as at the steps to its left, and so every search takes the same course. -/
namespace TreeQuery

def Step.retag (rename : String → String) (step : Step) : Step :=
  { step with element := step.element.map rename }

def Selector.retag (rename : String → String) (selector : Selector) : Selector :=
  ⟨selector.steps.map (Step.retag rename), mt List.map_eq_nil_iff.mp selector.nonempty⟩

def SelectorList.retag (rename : String → String) (list : SelectorList) : SelectorList :=
  ⟨list.members.map (Selector.retag rename)⟩

def Step.Retagged (rename : String → String) (step twin : Step) : Prop :=
  twin = step.retag rename

section Retag

variable {rename : String → String}

theorem SelectorList.matches_retag (list : SelectorList) :
    list.Matches (Step.Retagged rename) (list.retag rename) := by
  rw [Matches, retag, List.forall₂_map_right_iff, List.forall₂_same]
  intro member _
  rw [Selector.Matches, Selector.retag, List.forall₂_map_right_iff, List.forall₂_same]
  exact fun _ _ => rfl

theorem Step.Searchable.retag {step : Step} (h : step.Searchable)
    (hr : ∀ name, rename name = "" → name = "") : (step.retag rename).Searchable := by
  refine ⟨fun he => ?_, h.ns, h.tests⟩
  obtain ⟨name, hname, hempty⟩ := Option.map_eq_some_iff.mp he
  exact h.element (hr name hempty ▸ hname)

end Retag

/-- Two settings for trees that differ in their tags, with comparisons of tags that make up for
this and pseudo rules that answer alike. -/
structure Setting.Retagged (rename : String → String) (setting other : Setting) : Prop where
  tree : setting.tree.Retagged rename other.tree
  combinators : other.options.combinators = setting.options.combinators
  tag : ∀ wanted tag, other.tagHolds (rename wanted) (rename tag) = setting.tagHolds wanted tag
  pseudoClass : ∀ id, other.pseudo.classHolds other.tree id =
    setting.pseudo.classHolds setting.tree id
  pseudoElement : ∀ id, other.pseudo.elementHolds other.tree id =
    setting.pseudo.elementHolds setting.tree id

namespace Setting.Retagged

variable {rename : String → String} {setting other : Setting} (h : setting.Retagged rename other)

include h

theorem wantedHolds_eq (wanted : Option String) (tag : String) :
    (wanted.map rename).all (fun wanted => other.tagHolds wanted (rename tag)) =
      wanted.all fun wanted => setting.tagHolds wanted tag := by
  cases wanted with
  | none => rfl
  | some wanted => exact h.tag wanted tag

theorem stepHolds_eq (checkTag : Bool) (step : Step) (id : NodeId) :
    other.stepHolds checkTag (step.retag rename) id = setting.stepHolds checkTag step id := by
  rw [stepHolds, stepHolds, h.tree.tagName?_eq]
  cases setting.tree.tagName? id with
  | none => rfl
  | some tag =>
    simp only [Option.map_some, Step.retag, h.wantedHolds_eq, idHolds, classesHold, testsHold,
      pseudosHold, h.tree.attribute?_eq, h.pseudoClass, h.pseudoElement]

theorem related_eq (combinator : Combinator) (id : NodeId) :
    other.related combinator id = setting.related combinator id := by
  have hshape := h.tree.sameShape
  simp only [related, h.combinators, hshape.ancestors_eq, hshape.parent, hshape.prevElement?_eq,
    hshape.elementsBefore_eq]

theorem corresponds : setting.Corresponds other (Step.Retagged rename) := by
  constructor
  case related =>
    funext combinator id
    exact h.related_eq combinator id
  case descendants => exact h.tree.sameShape.descendants_eq
  case combinator =>
    rintro step _ rfl
    rfl
  case holds =>
    rintro step _ rfl checkTag
    funext id
    exact h.stepHolds_eq checkTag step id
  case tag =>
    rintro step _ rfl id
    rw [h.tree.tagName?_eq, Option.any_map]
    cases setting.tree.tagName? id with
    | none => rfl
    | some tag => exact h.wantedHolds_eq step.element tag

end Setting.Retagged

theorem toList_toLower (name : String) : name.toLower.toList = name.toList.map Char.toLower :=
  String.toList_map

theorem equalFoldingCase_eq (front back : String) :
    equalFoldingCase front back = (front.toLower == back.toLower) := by
  rw [equalFoldingCase, Bool.eq_iff_iff, beq_iff_eq, beq_iff_eq, ← String.toList_inj,
    toList_toLower, toList_toLower]

theorem eq_empty_of_toLower {name : String} (h : name.toLower = "") : name = "" := by
  rw [← String.toList_inj, toList_toLower] at h
  exact String.toList_inj.mp (List.map_eq_nil_iff.mp h)

/-- Ignoring case is comparing exactly what is written in lower case. -/
theorem Setting.retagged_toLower {tree other : Tree} (h : tree.Retagged String.toLower other)
    (combinators : CombinatorReading) :
    Setting.Retagged String.toLower ⟨tree, ⟨combinators, true⟩, .always⟩
      ⟨other, ⟨combinators, false⟩, .always⟩ where
  tree := h
  combinators := rfl
  tag wanted tag := (equalFoldingCase_eq wanted tag).symm
  pseudoClass _ := rfl
  pseudoElement _ := rfl

theorem Setting.satisfies_tag {setting : Setting} {id : NodeId} {wanted tag : String}
    {combinator : Combinator} (ht : setting.tree.tagName? id = some tag)
    (hw : setting.tagHolds wanted tag = true) :
    setting.Satisfies { element := some wanted, combinator } id := by
  refine ⟨⟨tag, ht, ?_⟩, nofun, nofun, nofun, nofun, nofun⟩
  rintro _ ⟨⟩
  exact tagHolds_iff.mp hw

namespace Session

structure Retagged (rename : String → String) (session other : Session) : Prop where
  setting : session.setting.Retagged rename other.setting
  found : other.found = session.found
  started : other.started = session.started

variable {rename : String → String} {session other : Session}

theorem Retagged.corresponds (h : session.Retagged rename other) :
    session.Corresponds other (Step.Retagged rename) :=
  ⟨h.setting.corresponds, h.found, h.started⟩

/-- Ignoring the case of tags finds, search after search, what exact comparison finds once all tags
of the tree and of the lists are in lower case: the same nodes in the same order. -/
theorem findLists_ignoring_case (steps : List Growth) (combinators : CombinatorReading)
    {lists : List SelectorList} (hl : ∀ list ∈ lists, list.supported = .ok ()) :
    let tree := Tree.grow steps
    let lower := Tree.grow (steps.map (Growth.retag String.toLower))
    ∃ front back,
      lists.foldlM findList (((ofRoot tree).withOptions ⟨combinators, true⟩).withPseudo .always) =
        .ok front ∧
      (lists.map (SelectorList.retag String.toLower)).foldlM findList
        (((ofRoot lower).withOptions ⟨combinators, false⟩).withPseudo .always) = .ok back ∧
      back.found.toList = front.found.toList := by
  intro tree lower
  have htree : tree.Retagged String.toLower lower := Tree.grow_retag String.toLower steps
  have hstart : Session.Retagged String.toLower
      (((ofRoot tree).withOptions ⟨combinators, true⟩).withPseudo .always)
      (((ofRoot lower).withOptions ⟨combinators, false⟩).withPseudo .always) :=
    ⟨Setting.retagged_toLower htree combinators, rfl, rfl⟩
  have hsearchable : ∀ step twin : Step, step.Retagged String.toLower twin → step.Searchable →
      twin.Searchable := by
    rintro step _ rfl hs
    exact hs.retag fun _ => eq_empty_of_toLower
  have hmatches : List.Forall₂ (SelectorList.Matches (Step.Retagged String.toLower)) lists
      (lists.map (SelectorList.retag String.toLower)) := by
    rw [List.forall₂_map_right_iff, List.forall₂_same]
    exact fun list _ => list.matches_retag
  obtain ⟨front, back, hf, hb, hlast⟩ := hstart.corresponds.findLists hsearchable hmatches
    fun list hm => SelectorList.supported_eq_ok_iff.mp (hl list hm)
  exact ⟨front, back, hf, hb, congrArg ArrivalSet.toList hlast.found⟩

/-- Two nested elements with tags in mixed case, sought with tags in other mixtures. -/
theorem findLists_of_mixed_case :
    let steps : List Growth := [.appendElement .root "Disc" [], .appendElement ⟨1⟩ "tiTLE" []]
    let list : SelectorList :=
      ⟨[⟨[{ element := some "dISC" }, { element := some "Title", combinator := .child }], nofun⟩]⟩
    let lower := Tree.grow (steps.map (Growth.retag String.toLower))
    (∀ other ∈ [list], other.supported = .ok ()) ∧ ∃ back,
      ([list].map (SelectorList.retag String.toLower)).foldlM findList
        (((ofRoot lower).withOptions ⟨.asWritten, false⟩).withPseudo .always) = .ok back ∧
      ⟨2⟩ ∈ back.found.toList := by
  intro steps list lower
  have hl : ∀ other ∈ [list], other.supported = .ok () := List.forall_mem_singleton.mpr rfl
  obtain ⟨front, back, hf, hb, hfound⟩ := findLists_ignoring_case steps .asWritten hl
  refine ⟨hl, back, hb, ?_⟩
  rw [hfound]
  let tree := Tree.grow steps
  let setting : Setting := ⟨tree, ⟨.asWritten, true⟩, .always⟩
  have hr : tree.Reachable := ⟨steps, rfl⟩
  let disc := NameTable.initial.intern "Disc"
  let title := disc.2.intern "tiTLE"
  have hlisted : tree.names.Listed := (NameTable.Listed.initial.intern "Disc").intern "tiTLE"
  have houter : tree.element? ⟨1⟩ = some { name := { localName := disc.1 } } := rfl
  have hinner : tree.element? ⟨2⟩ = some { name := { localName := title.1 } } := rfl
  have hdisc : tree.tagName? ⟨1⟩ = some "Disc" := Tree.tagName?_of_lookup hlisted houter <|
    NameTable.lookup_intern (NameTable.lookup_interned .initial "Disc")
  have htitle : tree.tagName? ⟨2⟩ = some "tiTLE" := Tree.tagName?_of_lookup hlisted hinner <|
    NameTable.lookup_interned disc.2 "tiTLE"
  have hholds : setting.listHolds list ⟨2⟩ = true := by
    rw [Setting.listHolds_singleton, Setting.selectorHolds_iff hr.forest]
    exact ⟨Setting.satisfies_tag htitle rfl, ⟨1⟩, rfl, Setting.satisfies_tag hdisc rfl, trivial⟩
  have hbelow : tree.Below ⟨2⟩ .root := .step (p := ⟨1⟩) rfl (.of_parent? rfl)
  have hfinds : ⟨2⟩ ∈ (setting.narrow [.root] list).toList :=
    (Setting.mem_narrow_iff_below hr.forest).mpr ⟨⟨.root, List.mem_cons_self, hbelow⟩, hholds⟩
  obtain ⟨after, ha, hn⟩ :=
    findList_ofRoot tree ⟨.asWritten, true⟩ .always (hl list List.mem_cons_self)
  rw [List.foldlM_cons, ha] at hf
  cases hf
  rw [hn]
  exact hfinds

end Session

end TreeQuery
