import TreeQuery.Proofs.Query.Relaxed
import TreeQuery.Proofs.Tree.Attributes

/-! Classes that are added to an element.
A step asks for classes and never for their absence. With a class value that keeps all words of the
old one an element satisfies every step that it satisfied before, unless a test looks at the whole
value, and what an assignment relates stays related. -/
namespace TreeQuery

def SelectorList.Ignores (list : SelectorList) (name : String) : Prop :=
  ∀ member ∈ list.members, ∀ step ∈ member.steps, ∀ test ∈ step.tests, test.name ≠ name

/-- The value has all words that the class attribute of the node has, if there is one. -/
def Tree.KeepsClasses (tree : Tree) (target : NodeId) (value : String) : Prop :=
  ∀ old, tree.attribute? target "class" = some old →
    ∀ word ∈ classWords old, word ∈ classWords value

namespace Setting

variable {tree after : Tree} {target id : NodeId} {value : String} {options : Options}

section Grown

variable (h : tree.AttributeSet after target "class" value) (hv : tree.KeepsClasses target value)

include h hv

theorem Satisfies.grow {step : Step} (hs : Satisfies ⟨tree, options, .always⟩ step id)
    (ht : ∀ test ∈ step.tests, test.name ≠ "class") :
    Satisfies ⟨after, options, .always⟩ step id := by
  have hsame : ∀ {name}, name ≠ "class" → after.attribute? id name = tree.attribute? id name :=
    fun hne => h.others id _ (.inr hne)
  constructor
  case tag =>
    obtain ⟨tag, htag, hwanted⟩ := hs.tag
    exact ⟨tag, (h.tag id).trans htag, hwanted⟩
  case ident => exact fun wanted hw => (hsame (by decide)).trans (hs.ident wanted hw)
  case classes =>
    intro name hname
    obtain ⟨old, hold, hword⟩ := hs.classes name hname
    by_cases hi : id = target
    · exact ⟨value, hi ▸ h.value, hv old (hi ▸ hold) name hword⟩
    · exact ⟨old, (h.others id "class" (.inl hi)).trans hold, hword⟩
  case tests =>
    intro test hm
    exact hsame (ht test hm) ▸ hs.tests test hm
  case pseudoClasses => exact fun _ _ => rfl
  case pseudoElements => exact fun _ _ => rfl

theorem listHolds_grow (f : tree.Forest tree.children) (g : after.Forest after.children)
    {list : SelectorList} (hl : list.Ignores "class")
    (hm : listHolds ⟨tree, options, .always⟩ list id = true) :
    listHolds ⟨after, options, .always⟩ list id = true := by
  let old : Setting := ⟨tree, options, .always⟩
  let new : Setting := ⟨after, options, .always⟩
  have hcarries : old.tree.Carries new.tree fun _ => True := h.shape.carries
  obtain ⟨member, hmem, hm⟩ := List.any_eq_true.mp hm
  refine List.any_eq_true.mpr ⟨member, hmem, ?_⟩
  refine selectorHolds_transfer f g (fun nodes ha => ha.transfer ?_ ?_) hm
  · exact List.forall₂_same.mpr fun step hstep id hs => hs.grow h hv (hl member hmem step hstep)
  · exact List.forall₂_same.mpr fun step _ left right hj =>
      (Joined.carry hcarries rfl trivial hj).1

theorem mem_narrow_grow (f : tree.Forest tree.children) (g : after.Forest after.children)
    {list : SelectorList} (hl : list.Ignores "class")
    (hm : id ∈ (narrow ⟨tree, options, .always⟩ [.root] list).toList) :
    id ∈ (narrow ⟨after, options, .always⟩ [.root] list).toList := by
  obtain ⟨⟨root, hroot, hb⟩, hholds⟩ := (mem_narrow_iff_below f).mp hm
  refine (mem_narrow_iff_below g).mpr ⟨⟨root, hroot, ?_⟩, listHolds_grow h hv f g hl hholds⟩
  exact (h.shape.carries.below trivial hb).1

end Grown

theorem selectorHolds_of_lacking {setting : Setting} {member : Selector} {name : String}
    (f : setting.tree.Forest setting.tree.children) (hn : name ∈ member.target.classes)
    (hid : ∀ value, setting.tree.attribute? id "class" = some value → name ∉ classWords value) :
    setting.selectorHolds true member id = false := by
  rw [← Bool.not_eq_true]
  intro hm
  obtain ⟨value, hv, hw⟩ := ((selectorHolds_iff f).mp hm).1.classes name hn
  exact hid value hv hw

end Setting

namespace Session

/-- With more classes at one element, every list without a test of the class attribute holds
wherever it held before, and a query finds all that it found before. A node without a class that the
last step asks for is never found. -/
theorem findList_of_classes {tree : Tree} (hr : tree.Reachable) :
    (∀ {target value}, tree.isElement target = true → tree.KeepsClasses target value →
      ∃ after, tree.setAttribute target "class" value = (.ok (), after) ∧
        ∀ {list : SelectorList}, list.supported = .ok () → list.Ignores "class" →
          ∀ options : Options,
            (∀ id, Setting.listHolds ⟨tree, options, .always⟩ list id = true →
              Setting.listHolds ⟨after, options, .always⟩ list id = true) ∧
            ∃ fewer more,
              (((ofRoot tree).withOptions options).withPseudo .always).findList list = .ok fewer ∧
              (((ofRoot after).withOptions options).withPseudo .always).findList list = .ok more ∧
              ∀ id ∈ fewer.found.toList, id ∈ more.found.toList) ∧
    ∀ {member : Selector} {name : String} {id : NodeId}, name ∈ member.target.classes →
      (∀ value, tree.attribute? id "class" = some value → name ∉ classWords value) →
      ∀ session after : Session, session.setting.tree = tree →
        session.findList ⟨[member]⟩ = .ok after → id ∉ after.found.toList := by
  refine ⟨fun he hv => ?_, ?_⟩
  · obtain ⟨after, hset, ha, h⟩ := hr.attributeSet he "class" _
    refine ⟨after, hset, fun hl hi options => ?_⟩
    obtain ⟨fewer, hf, hfewer⟩ := findList_ofRoot tree options .always hl
    obtain ⟨more, hm, hmore⟩ := findList_ofRoot after options .always hl
    refine ⟨fun id => Setting.listHolds_grow h hv hr.forest ha.forest hi,
      fewer, more, hf, hm, fun id hid => ?_⟩
    rw [hfewer] at hid
    rw [hmore]
    exact Setting.mem_narrow_grow h hv hr.forest ha.forest hi hid
  · rintro member name id hn hid session after rfl hf hm
    obtain ⟨-, hl⟩ := (mem_findList_iff hr hf).mp hm
    rw [Setting.listHolds_singleton, Setting.selectorHolds_of_lacking hr.forest hn hid] at hl
    cases hl

/-- An element of class `one` gets the class `two` besides, and is found by `.one` as before. Before
it had that class it was not found by `.two`. -/
theorem findList_of_second_class :
    let bare := Tree.grow [.appendElement .root "a" []]
    let tree := (bare.setAttribute ⟨1⟩ "class" "one").2
    let after := (tree.setAttribute ⟨1⟩ "class" "two one").2
    let list : SelectorList := ⟨[⟨[{ classes := .ofList ["one"] }], nofun⟩]⟩
    let second : Selector := ⟨[{ classes := .ofList ["two"] }], nofun⟩
    tree.Reachable ∧ tree.isElement ⟨1⟩ = true ∧ tree.KeepsClasses ⟨1⟩ "two one" ∧
      list.supported = .ok () ∧ list.Ignores "class" ∧
      (∃ more, (((ofRoot after).withOptions {}).withPseudo .always).findList list = .ok more ∧
        ⟨1⟩ ∈ more.found.toList) ∧
      ∃ other, (((ofRoot tree).withOptions {}).withPseudo .always).findList ⟨[second]⟩ = .ok other ∧
        ⟨1⟩ ∉ other.found.toList := by
  intro bare tree after list second
  have hbare : bare.Reachable := ⟨_, rfl⟩
  have hone : bare.isElement ⟨1⟩ = true := rfl
  obtain ⟨tree', hset, hr, h⟩ := hbare.attributeSet hone "class" "one"
  have htree : tree = tree' := congrArg Prod.snd hset
  rw [← htree] at hr h
  have he : tree.isElement ⟨1⟩ = true := h.shape.element ▸ rfl
  have hkeeps : tree.KeepsClasses ⟨1⟩ "two one" := by
    intro old hold
    cases h.value.symm.trans hold
    decide
  have hl : list.supported = .ok () := rfl
  have hi : list.Ignores "class" :=
    List.forall_mem_singleton.mpr (List.forall_mem_singleton.mpr nofun)
  obtain ⟨hgrows, hlacks⟩ := findList_of_classes hr
  refine ⟨hr, he, hkeeps, hl, hi, ?_, ?_⟩
  · obtain ⟨after', hset, hgrow⟩ := hgrows he hkeeps
    have hafter : after = after' := congrArg Prod.snd hset
    rw [← hafter] at hgrow
    obtain ⟨-, fewer, more, hf, hm, hsub⟩ := hgrow hl hi {}
    refine ⟨more, hm, hsub _ ?_⟩
    obtain ⟨other, ho, hfound⟩ := findList_ofRoot tree {} .always hl
    cases hf.symm.trans ho
    have hbelow : tree.Below ⟨1⟩ .root := (h.shape.carries.below trivial (.of_parent? rfl)).1
    rw [hfound]
    refine (Setting.mem_narrow_iff_below hr.forest).mpr ⟨⟨.root, List.mem_cons_self, hbelow⟩, ?_⟩
    rw [Setting.listHolds_singleton, Setting.selectorHolds_iff hr.forest]
    have hclasses : ∀ name ∈ NameSet.ofList ["one"],
        ∃ value, tree.attribute? ⟨1⟩ "class" = some value ∧ name ∈ classWords value := by
      intro name hname
      cases List.mem_singleton.mp (NameSet.mem_ofList.mp hname)
      exact ⟨"one", h.value, by decide⟩
    exact ⟨⟨⟨_, (h.tag ⟨1⟩).trans rfl, nofun⟩, nofun, hclasses, nofun, nofun, nofun⟩, trivial⟩
  · have hs : SelectorList.supported ⟨[second]⟩ = .ok () := rfl
    obtain ⟨other, ho, -⟩ := findList_ofRoot tree {} .always hs
    refine ⟨other, ho, hlacks (NameSet.mem_ofList.mpr (List.mem_singleton_self "two")) ?_ _ _ rfl ho⟩
    intro value hvalue
    cases h.value.symm.trans hvalue
    decide

end Session

end TreeQuery
