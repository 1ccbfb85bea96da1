import TreeQuery.Proofs.Query.Correspondence
import TreeQuery.Proofs.Query.Part
import TreeQuery.Proofs.Selector.Values

/-! Ids and classes, and the attribute tests that say the same.
A step checks its id and its classes by comparisons of its own. The tests `[id=x]` and `[class~=c]`
go through the operators, which refuse short values and empty words first; they accept exactly the
same elements, so that a search takes the same course whichever way a step is written. -/
namespace TreeQuery

namespace AttributeSelector

variable {name wanted : String} {operator : AttributeOperator} {value? : Option String}

def ofId (name : String) : AttributeSelector := .compare "id" .equals name

def ofClass (name : String) : AttributeSelector := .compare "class" .word name

theorem holds_compare (hp : operator ≠ .present) :
    (compare name operator wanted).holds value? = true ↔
      ∃ actual, value? = some actual ∧ operator.Relates wanted actual := by
  cases value? with
  | none => simp [holds]
  | some actual =>
    have hsome : (compare name operator wanted).holds (some actual) =
        operator.accepts wanted actual := holds_some hp
    rw [hsome, AttributeOperator.accepts_iff_relates hp]
    simp

theorem holds_ofId : (ofId name).holds value? = true ↔ value? = some name := by
  have hp : AttributeOperator.equals ≠ .present := nofun
  rw [ofId, holds_compare hp]
  simp [AttributeOperator.Relates]

theorem holds_ofClass : (ofClass name).holds value? = true ↔
    ∃ value, value? = some value ∧ name ∈ classWords value := by
  have hp : AttributeOperator.word ≠ .present := nofun
  rw [ofClass, holds_compare hp]
  simp only [AttributeOperator.Relates, mem_classWords_iff]

end AttributeSelector

/-- The second step asks by tests for some of the ids and classes that the first one asks for, or
for all of them or none; for the rest it asks in the same way. -/
structure Step.Respelled (short long : Step) : Prop where
  element : long.element = short.element
  ns : long.ns = short.ns
  id : long.id = short.id ∨ long.id = none
  classes : ∀ name ∈ long.classes, name ∈ short.classes
  tests : ∀ test, test ∈ long.tests ↔ test ∈ short.tests ∨
    (∃ name, short.id = some name ∧ long.id = none ∧ test = .ofId name) ∨
    ∃ name ∈ short.classes, name ∉ long.classes ∧ test = .ofClass name
  pseudoClasses : long.pseudoClasses = short.pseudoClasses
  pseudoElements : long.pseudoElements = short.pseudoElements
  combinator : long.combinator = short.combinator

namespace Step

def spelledOut (step : Step) : Step :=
  { step with
    id := none
    classes := .empty
    tests := step.tests ++ step.id.toList.map .ofId ++ step.classes.names.map .ofClass }

namespace Respelled

theorem spelledOut (step : Step) : step.Respelled step.spelledOut := by
  refine ⟨rfl, rfl, .inr rfl, fun name hn => absurd hn (NameSet.not_mem_empty name),
    fun test => ?_, rfl, rfl, rfl⟩
  have hid : test ∈ step.id.toList.map .ofId ↔
      ∃ name, step.id = some name ∧ step.spelledOut.id = none ∧ test = .ofId name := by
    simp [Step.spelledOut, eq_comm]
  have hclasses : test ∈ step.classes.names.map .ofClass ↔
      ∃ name ∈ step.classes, name ∉ step.spelledOut.classes ∧ test = .ofClass name := by
    rw [List.mem_map]
    refine exists_congr fun name => and_congr_right fun _ => ?_
    have hnot : name ∉ step.spelledOut.classes := NameSet.not_mem_empty name
    rw [and_iff_right hnot, eq_comm]
  rw [← hid, ← hclasses, ← or_assoc, ← List.mem_append, ← List.mem_append]
  rfl

variable {short long : Step} (h : short.Respelled long)

include h

theorem searchable (hs : short.Searchable) : long.Searchable := by
  refine ⟨h.element ▸ hs.element, h.ns.trans hs.ns, fun test ht => ?_⟩
  rcases (h.tests test).mp ht with ht | ⟨name, -, -, rfl⟩ | ⟨name, -, -, rfl⟩
  · exact hs.tests test ht
  · rfl
  · rfl

end Respelled

end Step

namespace Setting

variable {setting : Setting} {step short long : Step} {id : NodeId}

/-- A node with the attributes that the id, the classes and the tests of a step ask for. -/
structure Fits (setting : Setting) (step : Step) (id : NodeId) : Prop where
  ident : ∀ wanted, step.id = some wanted → setting.tree.attribute? id "id" = some wanted
  classes : ∀ name ∈ step.classes,
    ∃ value, setting.tree.attribute? id "class" = some value ∧ name ∈ classWords value
  tests : ∀ test ∈ step.tests, test.holds (setting.tree.attribute? id test.name) = true

theorem fits_iff : (setting.idHolds step id && setting.classesHold step id &&
    setting.testsHold step id) = true ↔ setting.Fits step id := by
  simp only [Bool.and_eq_true, classesHold_iff, idHolds, testsHold, Option.all_eq_true,
    List.all_eq_true, beq_iff_eq]
  constructor
  · rintro ⟨⟨hident, hclasses⟩, htests⟩
    exact ⟨hident, hclasses, htests⟩
  · exact fun h => ⟨⟨h.ident, h.classes⟩, h.tests⟩

/-- The same nodes fit, whichever of the ids and classes are written as tests. -/
theorem fits_respelled (h : short.Respelled long) :
    setting.Fits long id ↔ setting.Fits short id := by
  constructor
  · intro hf
    constructor
    case ident =>
      intro wanted hw
      rcases h.id with hkept | hnone
      · exact hf.ident wanted (hkept.trans hw)
      · have hm : .ofId wanted ∈ long.tests :=
          (h.tests _).mpr (.inr (.inl ⟨wanted, hw, hnone, rfl⟩))
        exact AttributeSelector.holds_ofId.mp (hf.tests _ hm)
    case classes =>
      intro name hn
      by_cases hkept : name ∈ long.classes
      · exact hf.classes name hkept
      · have hm : .ofClass name ∈ long.tests :=
          (h.tests _).mpr (.inr (.inr ⟨name, hn, hkept, rfl⟩))
        exact AttributeSelector.holds_ofClass.mp (hf.tests _ hm)
    case tests => exact fun test ht => hf.tests test ((h.tests test).mpr (.inl ht))
  · intro hf
    constructor
    case ident =>
      intro wanted hw
      rcases h.id with hkept | hnone
      · exact hf.ident wanted (hkept.symm.trans hw)
      · exact absurd (hnone.symm.trans hw) nofun
    case classes => exact fun name hn => hf.classes name (h.classes name hn)
    case tests =>
      intro test ht
      rcases (h.tests test).mp ht with ht | ⟨name, hn, -, rfl⟩ | ⟨name, hn, -, rfl⟩
      · exact hf.tests test ht
      · exact AttributeSelector.holds_ofId.mpr (hf.ident name hn)
      · exact AttributeSelector.holds_ofClass.mpr (hf.classes name hn)

theorem stepHolds_respelled (h : short.Respelled long) (checkTag : Bool) :
    setting.stepHolds checkTag long = setting.stepHolds checkTag short := by
  funext id
  have hfits : (setting.idHolds long id && setting.classesHold long id &&
      setting.testsHold long id) = (setting.idHolds short id && setting.classesHold short id &&
      setting.testsHold short id) := by
    rw [Bool.eq_iff_iff, fits_iff, fits_iff, fits_respelled h]
  have hpseudos : setting.pseudosHold long id = setting.pseudosHold short id := by
    rw [pseudosHold, pseudosHold, h.pseudoClasses, h.pseudoElements]
  have hgroup : ∀ a i c t p : Bool, (a && i && c && t && p) = (a && (i && c && t) && p) := by
    decide
  unfold stepHolds
  cases setting.tree.tagName? id with
  | none => rfl
  | some tag => simp only [hgroup, hfits, hpseudos, h.element]

theorem corresponds_respelled (setting : Setting) :
    setting.Corresponds setting Step.Respelled := by
  constructor
  case related => rfl
  case descendants => rfl
  case combinator => exact fun h => h.combinator
  case holds => exact fun h checkTag => stepHolds_respelled h checkTag
  case tag =>
    intro short long h id
    rw [h.element]

end Setting

namespace Session

/-- Written as a test or as an id or class, what a search asks for is the same: from any session, a
run of searches finds the same nodes in the same order. -/
theorem findLists_of_respelled (session : Session) {lists others : List SelectorList}
    (h : List.Forall₂ (SelectorList.Matches Step.Respelled) lists others)
    (hl : ∀ list ∈ lists, list.supported = .ok ()) :
    ∃ front back, lists.foldlM findList session = .ok front ∧
      others.foldlM findList session = .ok back ∧ back.found.toList = front.found.toList := by
  have hstart : session.Corresponds session Step.Respelled :=
    ⟨session.setting.corresponds_respelled, rfl, rfl⟩
  have hsearchable : ∀ list ∈ lists, list.Searchable :=
    fun list hm => SelectorList.supported_eq_ok_iff.mp (hl list hm)
  obtain ⟨front, back, hf, hb, hlast⟩ :=
    hstart.findLists (fun _ _ hr => hr.searchable) h hsearchable
  exact ⟨front, back, hf, hb, congrArg ArrivalSet.toList hlast.found⟩

/-- An element is found by its id also where the id is written as a test; a class with a blank
character in it finds nothing either way. -/
theorem findLists_of_spelled_out :
    let tree := Tree.grow [.appendElement .root "a" [("id", "b-c")]]
    let ident : Step := { id := some "b-c" }
    let words : Step := { classes := .ofList ["", "two words"] }
    let list : SelectorList := ⟨[⟨[ident], nofun⟩, ⟨[words], nofun⟩]⟩
    let other : SelectorList := ⟨[⟨[ident.spelledOut], nofun⟩, ⟨[words.spelledOut], nofun⟩]⟩
    List.Forall₂ (SelectorList.Matches Step.Respelled) [list] [other] ∧
      (∀ sought ∈ [list], sought.supported = .ok ()) ∧
      ∃ back, [other].foldlM findList (ofRoot tree) = .ok back ∧ ⟨1⟩ ∈ back.found.toList := by
  intro tree ident words list other
  have hr : tree.Reachable := ⟨_, rfl⟩
  have hmatches : List.Forall₂ (SelectorList.Matches Step.Respelled) [list] [other] :=
    .cons (.cons (.cons (.spelledOut ident) .nil)
      (.cons (.cons (.spelledOut words) .nil) .nil)) .nil
  have hl : ∀ sought ∈ [list], sought.supported = .ok () := List.forall_mem_singleton.mpr rfl
  obtain ⟨front, back, hf, hb, hfound⟩ := (ofRoot tree).findLists_of_respelled hmatches hl
  refine ⟨hmatches, hl, back, hb, ?_⟩
  rw [hfound]
  obtain ⟨after, ha, hn⟩ := findList_ofRoot tree {} .always (hl list List.mem_cons_self)
  have hafter : (ofRoot tree).findList list = .ok after := ha
  rw [List.foldlM_cons, hafter] at hf
  cases hf
  rw [hn, Setting.mem_narrow_iff_below hr.forest]
  refine ⟨⟨.root, List.mem_cons_self, .of_parent? rfl⟩, ?_⟩
  refine List.any_eq_true.mpr ⟨⟨[ident], nofun⟩, List.mem_cons_self, ?_⟩
  refine (Setting.selectorHolds_iff hr.forest).mpr ⟨?_, trivial⟩
  refine ⟨⟨_, rfl, nofun⟩, ?_, nofun, nofun, nofun, nofun⟩
  rintro wanted ⟨⟩
  exact Tree.attribute?_grow "a" "b-c"

end Session

end TreeQuery
