import Mathlib.Data.List.Forall2
import TreeQuery.Proofs.Tree.Kin
import TreeQuery.Query.Match

/-! What it means that a node satisfies a selector, and that the search decides it.
The meaning assigns one element to each step; it knows neither the order in which the search tries
nodes nor what the search notes on its way. -/
namespace TreeQuery

/-- The steps to the left of the target, the nearest first. -/
def Selector.left (selector : Selector) : List Step := selector.steps.dropLast.reverse

theorem Selector.steps_eq (selector : Selector) :
    selector.steps = selector.left.reverse ++ [selector.target] := by
  rw [left, List.reverse_reverse, target, List.dropLast_concat_getLast]

theorem Tree.isElement_of_tagName? {tree : Tree} {id : NodeId} {tag : String}
    (h : tree.tagName? id = some tag) : tree.isElement id = true := by
  obtain ⟨element, he, -⟩ := Option.map_eq_some_iff.mp h
  rw [isElement, he, Option.isSome_some]

/-- An ASCII letter as a capital and as a small letter. -/
def IsCapitalOf (capital small : Char) : Prop :=
  'A' ≤ capital ∧ capital ≤ 'Z' ∧ small.toNat = capital.toNat + 32

/-- The same character, or the same ASCII letter in both cases. -/
def SameLetter (front back : Char) : Prop :=
  front = back ∨ IsCapitalOf front back ∨ IsCapitalOf back front

theorem toNat_toLower (c : Char) :
    c.toLower.toNat = if 'A' ≤ c ∧ c ≤ 'Z' then c.toNat + 32 else c.toNat := by
  by_cases h : 'A' ≤ c ∧ c ≤ 'Z'
  · have hz : c.toNat ≤ 90 := h.2
    have hlower : c.toLower.toNat = (c.val + 32).toNat :=
      congrArg Char.toNat (dif_pos h : c.toLower = _)
    rw [if_pos h, hlower, UInt32.toNat_add]
    exact Nat.mod_eq_of_lt (Nat.lt_of_le_of_lt (Nat.add_le_add_right hz 32) (by decide))
  · rw [if_neg h]
    exact congrArg Char.toNat (dif_neg h : c.toLower = c)

theorem toLower_eq_toLower_iff {front back : Char} :
    front.toLower = back.toLower ↔ SameLetter front back := by
  have hle : ∀ a b : Char, a ≤ b ↔ a.toNat ≤ b.toNat := fun _ _ => Iff.rfl
  have ha : 'A'.toNat = 65 := rfl
  have hz : 'Z'.toNat = 90 := rfl
  simp only [SameLetter, IsCapitalOf, ← Char.toNat_inj, toNat_toLower, hle, ha, hz]
  split <;> split <;> omega

theorem equalFoldingCase_iff {front back : String} : equalFoldingCase front back = true ↔
    List.Forall₂ SameLetter front.toList back.toList := by
  rw [equalFoldingCase, beq_iff_eq, ← List.forall₂_eq_eq_eq, List.forall₂_map_left_iff,
    List.forall₂_map_right_iff]
  simp only [toLower_eq_toLower_iff]

namespace Setting

variable {setting : Setting} {step : Step} {id left right : NodeId}

/-- A tag is the wanted one, character by character where the options ignore case. -/
def IsTag (setting : Setting) (wanted tag : String) : Prop :=
  if setting.options.ignoreTagCase then List.Forall₂ SameLetter wanted.toList tag.toList
  else wanted = tag

theorem tagHolds_iff {wanted tag : String} :
    setting.tagHolds wanted tag = true ↔ setting.IsTag wanted tag := by
  rw [tagHolds, IsTag]
  split
  · exact equalFoldingCase_iff
  · exact beq_iff_eq

/-- An element with all that a step asks for. -/
structure Satisfies (setting : Setting) (step : Step) (id : NodeId) : Prop where
  tag : ∃ tag, setting.tree.tagName? id = some tag ∧
    ∀ wanted, step.element = some wanted → setting.IsTag wanted tag
  ident : ∀ wanted, step.id = some wanted → setting.tree.attribute? id "id" = some wanted
  classes : ∀ name ∈ step.classes,
    ∃ value, setting.tree.attribute? id "class" = some value ∧ name ∈ classWords value
  tests : ∀ test ∈ step.tests, test.holds (setting.tree.attribute? id test.name) = true
  pseudoClasses : ∀ name ∈ step.pseudoClasses,
    setting.pseudo.classHolds setting.tree id name = true
  pseudoElements : ∀ name ∈ step.pseudoElements,
    setting.pseudo.elementHolds setting.tree id name = true

/-- The relation between two nodes for which a combinator stands. -/
def Joined (setting : Setting) (combinator : Combinator) (left right : NodeId) : Prop :=
  match setting.options.combinators, combinator with
  | .asDescendant, _ | .asWritten, .none | .asWritten, .descendant => setting.tree.Below right left
  | .asWritten, .child => setting.tree.parent? right = some left
  | .asWritten, .nextSibling => setting.tree.Adjacent left right
  | .asWritten, .subsequentSibling => setting.tree.Earlier left right

/-- One node for each step, each with what its step asks for, neighbours related by the combinator
of the later step. -/
structure Assignment (setting : Setting) (steps : List Step) (nodes : List NodeId) : Prop where
  satisfied : List.Forall₂ setting.Satisfies steps nodes
  joined : ∀ {i step left right}, steps[i + 1]? = some step → nodes[i]? = some left →
    nodes[i + 1]? = some right → setting.Joined step.combinator left right

theorem classesHold_iff : setting.classesHold step id = true ↔ ∀ name ∈ step.classes,
    ∃ value, setting.tree.attribute? id "class" = some value ∧ name ∈ classWords value := by
  change _ ↔ ∀ name ∈ step.classes.names, _
  unfold classesHold NameSet.isEmpty
  cases hv : setting.tree.attribute? id "class" with
  | none =>
    rw [Option.any_none, Bool.or_false, List.isEmpty_iff, List.eq_nil_iff_forall_not_mem]
    exact forall₂_congr fun _ _ => ⟨False.elim, fun ⟨_, h, _⟩ => nomatch h⟩
  | some value =>
    cases step.classes.names <;> simp

theorem stepHolds_iff : setting.stepHolds true step id = true ↔ setting.Satisfies step id := by
  rw [stepHolds]
  cases ht : setting.tree.tagName? id with
  | none =>
    refine ⟨fun h => absurd h nofun, fun h => ?_⟩
    obtain ⟨tag, hn, -⟩ := h.tag
    exact absurd (ht.symm.trans hn) nofun
  | some tag =>
    simp only [idHolds, testsHold, pseudosHold, Bool.not_true, Bool.false_or, Bool.and_eq_true,
      Option.all_eq_true, List.all_eq_true, classesHold_iff, tagHolds_iff, beq_iff_eq]
    constructor
    · rintro ⟨⟨⟨⟨htag, hid⟩, hclasses⟩, htests⟩, hpc, hpe⟩
      exact ⟨⟨tag, ht, htag⟩, hid, hclasses, htests, hpc, hpe⟩
    · intro h
      obtain ⟨other, ho, htag⟩ := h.tag
      cases ht.symm.trans ho
      exact ⟨⟨⟨⟨htag, h.ident⟩, h.classes⟩, h.tests⟩, h.pseudoClasses, h.pseudoElements⟩

theorem Satisfies.isElement (h : setting.Satisfies step id) :
    setting.tree.isElement id = true := by
  obtain ⟨tag, ht, -⟩ := h.tag
  exact Tree.isElement_of_tagName? ht

theorem mem_related_iff (f : setting.tree.Forest setting.tree.children) {combinator : Combinator}
    (he : setting.tree.isElement right = true) :
    left ∈ setting.related combinator right ↔ setting.Joined combinator left right := by
  unfold related Joined
  cases setting.options.combinators with
  | asDescendant => exact f.mem_ancestors_iff
  | asWritten =>
    cases combinator with
    | none => exact f.mem_ancestors_iff
    | descendant => exact f.mem_ancestors_iff
    | child => exact Option.mem_toList
    | nextSibling => exact Option.mem_toList.trans (f.prevElement?_eq_some_iff he)
    | subsequentSibling => exact f.mem_elementsBefore_iff he

theorem Joined.carry {other : Setting} {P : NodeId → Prop}
    (h : setting.tree.Carries other.tree P) (ho : other.options = setting.options)
    {combinator : Combinator} (hr : P right) (hj : setting.Joined combinator left right) :
    other.Joined combinator left right ∧ P left := by
  unfold Joined at hj ⊢
  rw [ho]
  cases hc : setting.options.combinators with
  | asDescendant =>
    rw [hc] at hj
    exact h.below hr hj
  | asWritten =>
    rw [hc] at hj
    cases combinator with
    | none => exact h.below hr hj
    | descendant => exact h.below hr hj
    | child => exact h.parent hr hj
    | nextSibling => exact h.adjacent hr hj
    | subsequentSibling => exact h.earlier hr hj

/-- The steps to the left, the nearest first, can be found from a node. -/
def LeftFound (setting : Setting) : (left : List Step) → Combinator → NodeId → Prop
  | [], _, _ => True
  | step :: left, combinator, id => ∃ other, setting.Joined combinator other id ∧
      setting.Satisfies step other ∧ LeftFound setting left step.combinator other

theorem assignment_singleton {nodes : List NodeId} :
    setting.Assignment [step] nodes ↔ ∃ id, nodes = [id] ∧ setting.Satisfies step id := by
  constructor
  · rintro ⟨hs, -⟩
    cases hs with
    | cons h hs =>
      cases hs
      exact ⟨_, rfl, h⟩
  · rintro ⟨id, rfl, h⟩
    exact ⟨.cons h .nil, nofun⟩

theorem Assignment.length_eq {steps : List Step} {nodes : List NodeId}
    (h : setting.Assignment steps nodes) : steps.length = nodes.length :=
  h.satisfied.length_eq

private theorem forall₂_concat {steps : List Step} {nodes : List NodeId} :
    List.Forall₂ setting.Satisfies (steps ++ [step]) (nodes ++ [right]) ↔
      setting.Satisfies step right ∧ List.Forall₂ setting.Satisfies steps nodes := by
  rw [← List.forall₂_reverse_iff, List.reverse_concat, List.reverse_concat, List.forall₂_cons,
    List.forall₂_reverse_iff]

theorem assignment_concat {steps : List Step} {nodes : List NodeId}
    (hl : nodes.getLast? = some left) :
    setting.Assignment (steps ++ [step]) (nodes ++ [right]) ↔
      setting.Assignment steps nodes ∧ setting.Satisfies step right ∧
        setting.Joined step.combinator left right := by
  have hnodes : nodes[nodes.length - 1]? = some left := by
    rw [← List.getLast?_eq_getElem?, hl]
  have hpos : 0 < nodes.length := List.length_pos_of_mem (List.mem_of_getLast? hl)
  have old : ∀ {α : Type} {list : List α} {i : Nat} {a b : α}, list[i]? = some a →
      (list ++ [b])[i]? = some a := by
    intro α list i a b h
    rw [List.getElem?_append_left (List.getElem?_eq_some_iff.mp h).1, h]
  constructor
  · rintro ⟨hs, hj⟩
    obtain ⟨hlast, hs⟩ := forall₂_concat.mp hs
    have hlen := hs.length_eq
    refine ⟨⟨hs, fun hi ha hb => hj (old hi) (old ha) (old hb)⟩, hlast, ?_⟩
    refine hj (i := nodes.length - 1) ?_ (old hnodes) ?_
    · rw [Nat.sub_add_cancel hpos, ← hlen, List.getElem?_concat_length]
    · rw [Nat.sub_add_cancel hpos, List.getElem?_concat_length]
  · rintro ⟨⟨hs, hj⟩, hlast, hjoined⟩
    have hlen := hs.length_eq
    refine ⟨forall₂_concat.mpr ⟨hlast, hs⟩, ?_⟩
    intro i other a b hi ha hb
    by_cases hlt : i + 1 < nodes.length
    · rw [List.getElem?_append_left (hlen ▸ hlt)] at hi
      rw [List.getElem?_append_left (Nat.lt_of_succ_lt hlt)] at ha
      rw [List.getElem?_append_left hlt] at hb
      exact hj hi ha hb
    · have hle : i + 1 < (nodes ++ [right]).length := (List.getElem?_eq_some_iff.mp hb).1
      rw [List.length_append, List.length_singleton] at hle
      have hi' : i = nodes.length - 1 := by omega
      subst hi'
      rw [Nat.sub_add_cancel hpos, ← hlen, List.getElem?_concat_length] at hi
      rw [Nat.sub_add_cancel hpos, List.getElem?_concat_length] at hb
      cases hi
      cases hb
      cases (old hnodes).symm.trans ha
      exact hjoined

theorem leftFound_iff {target : Step} {left : List Step} :
    setting.Satisfies target id ∧ setting.LeftFound left target.combinator id ↔
      ∃ nodes, setting.Assignment (left.reverse ++ [target]) nodes ∧
        nodes.getLast? = some id := by
  induction left generalizing target id with
  | nil =>
    rw [List.reverse_nil, List.nil_append]
    constructor
    · rintro ⟨h, -⟩
      exact ⟨[id], assignment_singleton.mpr ⟨id, rfl, h⟩, rfl⟩
    · rintro ⟨nodes, h, hl⟩
      obtain ⟨other, rfl, hs⟩ := assignment_singleton.mp h
      cases hl
      exact ⟨hs, trivial⟩
  | cons step left ih =>
    rw [List.reverse_cons]
    constructor
    · rintro ⟨h, other, hj, hs, hf⟩
      obtain ⟨nodes, ha, hl⟩ := ih.mp ⟨hs, hf⟩
      exact ⟨nodes ++ [id], (assignment_concat hl).mpr ⟨ha, h, hj⟩, List.getLast?_concat⟩
    · rintro ⟨nodes, ha, hl⟩
      obtain ⟨nodes, rfl⟩ := List.getLast?_eq_some_iff.mp hl
      cases hn : nodes.getLast? with
      | none =>
        have hlen := ha.length_eq
        rw [List.getLast?_eq_none_iff.mp hn] at hlen
        simp at hlen
      | some other =>
        obtain ⟨ha, h, hj⟩ := (assignment_concat hn).mp ha
        obtain ⟨hs, hf⟩ := ih.mpr ⟨nodes, ha, hn⟩
        exact ⟨h, other, hj, hs, hf⟩

end Setting

theorem tryEach_spec {attempt : NodeId → Search → Bool × Search} {P : NodeId → Prop}
    {I : Search → Prop}
    (step : ∀ id search, I search →
      ((attempt id search).1 = true ↔ P id) ∧ I (attempt id search).2)
    (ids : List NodeId) {search : Search} (hs : I search) :
    ((tryEach attempt ids search).1 = true ↔ ∃ id ∈ ids, P id) ∧
      I (tryEach attempt ids search).2 := by
  induction ids generalizing search with
  | nil => exact ⟨by simp [tryEach], hs⟩
  | cons id rest ih =>
    obtain ⟨hp, hi⟩ := step id search hs
    rw [tryEach]
    rw [List.exists_mem_cons_iff, ← hp]
    cases he : attempt id search with
    | mk found after =>
      rw [he] at hi
      cases found with
      | true => exact ⟨by simp, hi⟩
      | false =>
        obtain ⟨ht, hi⟩ := ih hi
        exact ⟨by simpa using ht, hi⟩

/-- What a search for the steps `all`, the last first, has noted is true: from a failed node the
steps to the left cannot be found. A step count stands for the steps of a unique ending. -/
def Search.Sound (setting : Setting) (all : List Step) (search : Search) : Prop :=
  ∀ {target left id}, (target :: left) <:+ all →
    search.failed.contains (left.length, id) = true →
      ¬ setting.LeftFound left target.combinator id

namespace Setting

variable {setting : Setting} {all : List Step}

/-- A failure is noted under a key that only this node and this ending of the steps have. -/
theorem sound_insert {search : Search} {target : Step} {left : List Step} {id : NodeId}
    (hs : search.Sound setting all) (ha : (target :: left) <:+ all)
    (hf : ¬ setting.LeftFound left target.combinator id) :
    Search.Sound setting all
      { search with failed := search.failed.insert (left.length, id) } := by
  intro other rest node hsuf hc
  rw [Std.HashSet.contains_insert, Bool.or_eq_true, beq_iff_eq] at hc
  rcases hc with he | hc
  · obtain ⟨hlen, rfl⟩ := Prod.mk.inj he
    have hend : (other :: rest) <:+ (target :: left) :=
      List.suffix_of_suffix_length_le hsuf ha (by simp [hlen])
    cases hend.eq_of_length (by simp [hlen])
    exact hf
  · exact hs hsuf hc

/-- The search decides whether the steps to the left can be found, and what it notes stays true. -/
theorem leftHolds_spec (f : setting.tree.Forest setting.tree.children) {target : Step}
    {left : List Step} {id : NodeId} {search : Search} (ha : (target :: left) <:+ all)
    (he : setting.tree.isElement id = true) (hs : search.Sound setting all) :
    ((setting.leftHolds left target.combinator id search).1 = true ↔
        setting.LeftFound left target.combinator id) ∧
      (setting.leftHolds left target.combinator id search).2.Sound setting all := by
  induction left generalizing target id search with
  | nil => exact ⟨by simp [leftHolds, LeftFound], hs⟩
  | cons step left ih =>
    have hstep : (step :: left) <:+ all := (List.suffix_cons target _).trans ha
    by_cases hk : search.failed.contains (left.length + 1, id) = true
    · rw [leftHolds, if_pos hk]
      exact ⟨⟨fun h => absurd h nofun, fun h => absurd h (hs ha hk)⟩, hs⟩
    · rw [leftHolds, if_neg hk]
      have hattempt : ∀ other search, search.Sound setting all →
          ((if setting.stepHolds true step other then
              setting.leftHolds left step.combinator other search
            else (false, search)).1 = true ↔
            setting.Satisfies step other ∧ setting.LeftFound left step.combinator other) ∧
          (if setting.stepHolds true step other then
              setting.leftHolds left step.combinator other search
            else (false, search)).2.Sound setting all := by
        intro other search hs
        by_cases ho : setting.stepHolds true step other = true
        · have hsat := stepHolds_iff.mp ho
          obtain ⟨hl, hi⟩ := ih hstep hsat.isElement hs
          rw [if_pos ho]
          exact ⟨hl.trans (and_iff_right hsat).symm, hi⟩
        · rw [if_neg ho]
          exact ⟨⟨fun h => absurd h nofun, fun h => absurd (stepHolds_iff.mpr h.1) ho⟩, hs⟩
      have hwalk : Search.Sound setting all
          { search with walks := (left.length + 1, id) :: search.walks } := hs
      obtain ⟨hp, hi⟩ := tryEach_spec hattempt (setting.related target.combinator id) hwalk
      have hfound : (∃ other ∈ setting.related target.combinator id,
            setting.Satisfies step other ∧ setting.LeftFound left step.combinator other) ↔
          setting.LeftFound (step :: left) target.combinator id :=
        exists_congr fun _ => and_congr_left' (mem_related_iff f he)
      rw [hfound] at hp
      dsimp only
      split
      · rename_i after hr
        rw [hr] at hp hi
        exact ⟨hp, hi⟩
      · rename_i after hr
        rw [hr] at hp hi
        exact ⟨hp, sound_insert hi ha fun h => absurd (hp.mpr h) nofun⟩

theorem leftHolds_iff (f : setting.tree.Forest setting.tree.children) {target : Step}
    {left : List Step} {id : NodeId} (he : setting.tree.isElement id = true) :
    (setting.leftHolds left target.combinator id {}).1 = true ↔
      setting.LeftFound left target.combinator id := by
  have hsound : Search.Sound setting (target :: left) {} := by
    intro target left other _ hc
    exact absurd hc (by simp)
  exact (leftHolds_spec f List.suffix_rfl he hsound).1

theorem selectorHolds_eq (checkTag : Bool) (selector : Selector) (id : NodeId) :
    setting.selectorHolds checkTag selector id =
      (setting.stepHolds checkTag selector.target id &&
        (setting.leftHolds selector.left selector.target.combinator id {}).1) := by
  unfold selectorHolds searchFrom
  rw [selector.steps_eq, List.reverse_concat, List.reverse_reverse]
  dsimp only
  cases setting.stepHolds checkTag selector.target id <;> rfl

theorem selectorHolds_iff (f : setting.tree.Forest setting.tree.children) {selector : Selector}
    {id : NodeId} :
    setting.selectorHolds true selector id = true ↔ setting.Satisfies selector.target id ∧
      setting.LeftFound selector.left selector.target.combinator id := by
  rw [selectorHolds_eq, Bool.and_eq_true, stepHolds_iff]
  exact and_congr_right fun hs => leftHolds_iff f hs.isElement

/-- A node satisfies a selector exactly if its steps can be assigned to elements, the last one to
the node. -/
theorem selectorHolds_iff_assignment (setting : Setting) (h : setting.tree.Reachable)
    (selector : Selector) (id : NodeId) :
    setting.selectorHolds true selector id = true ↔
      ∃ nodes, setting.Assignment selector.steps nodes ∧ nodes.getLast? = some id := by
  have hsound : Search.Sound setting (selector.target :: selector.left) {} := by
    intro target left other _ hc
    exact absurd hc (by simp)
  rw [selectorHolds_eq, Bool.and_eq_true, stepHolds_iff, selector.steps_eq, ← leftFound_iff]
  apply and_congr_right
  intro hs
  exact (leftHolds_spec h.forest List.suffix_rfl hs.isElement hsound).1

/-- The inner of two nested elements satisfies `* > *`. -/
theorem selectorHolds_of_nested :
    let tree := Tree.grow [.appendElement .root "a" [], .appendElement ⟨1⟩ "a" []]
    tree.Reachable ∧
      selectorHolds { tree } true ⟨[{}, { combinator := .child }], nofun⟩ ⟨2⟩ = true := by
  intro tree
  have hr : tree.Reachable := ⟨_, rfl⟩
  refine ⟨hr, (selectorHolds_iff_assignment { tree } hr _ _).mpr ⟨[⟨1⟩, ⟨2⟩], ⟨?_, ?_⟩, rfl⟩⟩
  · refine .cons ⟨⟨_, rfl, nofun⟩, nofun, nofun, nofun, nofun, nofun⟩ (.cons ?_ .nil)
    exact ⟨⟨_, rfl, nofun⟩, nofun, nofun, nofun, nofun, nofun⟩
  · intro i step left right hs hl hn
    cases i with
    | zero =>
      cases hs
      cases hl
      cases hn
      rfl
    | succ i => exact absurd hs nofun

end Setting

end TreeQuery
