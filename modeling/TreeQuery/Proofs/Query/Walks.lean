import Mathlib.Data.List.ProdSigma
import TreeQuery.Proofs.Query.Failure

/-! What a search has noted, and the walks it has made, at every moment on its way.
A walk has failed or is still going on. No pair is walked from again: what failed is noted, and the
walks that are going on are for steps further right. -/
namespace TreeQuery

theorem length_le_mul {keys : List (Nat × NodeId)} {count size : Nat} (hn : keys.Nodup)
    (hr : ∀ key ∈ keys, 0 < key.1 ∧ key.1 ≤ count ∧ key.2.index < size) :
    keys.length ≤ count * size := by
  have hs : keys ⊆ List.range' 1 count ×ˢ (List.range size).map NodeId.mk := by
    intro key hk
    obtain ⟨hpos, hle, hlt⟩ := hr key hk
    refine List.mem_product.mpr ⟨List.mem_range'_1.mpr ⟨hpos, by omega⟩, ?_⟩
    exact List.mem_map.mpr ⟨key.2.index, List.mem_range.mpr hlt, rfl⟩
  simpa [List.length_product] using (List.subperm_of_subset hn hs).length_le

theorem Selector.reverse_steps (selector : Selector) :
    selector.steps.reverse = selector.target :: selector.left := by
  rw [selector.steps_eq, List.reverse_concat, List.reverse_reverse]

namespace Search

def begin (key : Nat × NodeId) (search : Search) : Search :=
  { search with walks := key :: search.walks }

def giveUp (key : Nat × NodeId) (search : Search) : Search :=
  { search with failed := search.failed.insert key }

theorem contains_giveUp {key other : Nat × NodeId} {search : Search} :
    (search.giveUp key).failed.contains other = true ↔
      key = other ∨ search.failed.contains other = true := by
  rw [giveUp, Std.HashSet.contains_insert, Bool.or_eq_true, beq_iff_eq]

end Search

namespace Setting

variable {setting : Setting} {target step : Step} {left : List Step} {id : NodeId}

/-- What a walk does at a candidate for `step`, to the left of which are the steps `left`. -/
def attempt (setting : Setting) (step : Step) (left : List Step) (candidate : NodeId)
    (search : Search) : Bool × Search :=
  if setting.stepHolds true step candidate then
    setting.leftHolds left step.combinator candidate search
  else (false, search)

theorem leftHolds_cons {combinator : Combinator} {search : Search} :
    setting.leftHolds (step :: left) combinator id search =
      let key := (left.length + 1, id)
      if search.failed.contains key then (false, search)
      else
        match tryEach (setting.attempt step left) (setting.related combinator id)
            (search.begin key) with
        | (true, search) => (true, search)
        | (false, search) => (false, search.giveUp key) := by
  rw [leftHolds]
  rfl

theorem isElement_of_stepHolds {checkTag : Bool} (h : setting.stepHolds checkTag step id = true) :
    setting.tree.isElement id = true := by
  unfold stepHolds at h
  cases ht : setting.tree.tagName? id with
  | none =>
    rw [ht] at h
    exact absurd h nofun
  | some tag => exact Tree.isElement_of_tagName? ht

theorem searchFrom_eq (checkTag : Bool) (selector : Selector) :
    setting.searchFrom checkTag selector id =
      if setting.stepHolds checkTag selector.target id then
        setting.leftHolds selector.left selector.target.combinator id {}
      else (false, {}) := by
  rw [searchFrom, selector.reverse_steps]

/-- The search as it is at some moment while the steps `left` are sought from `id`, which has what
`target` asks for: at first, at last, before or after each candidate of the walk, and while the
steps further left are sought from a candidate. -/
inductive Passes (setting : Setting) :
    (target : Step) → (left : List Step) → NodeId → (start moment : Search) → Prop where
  | enter {target left id start} : Passes setting target left id start start
  | leave {target left id start} :
      Passes setting target left id start (setting.leftHolds left target.combinator id start).2
  | between {target step left id start front back moment} :
      start.failed.contains (left.length + 1, id) = false →
      setting.related target.combinator id = front ++ back →
      tryEach (setting.attempt step left) front (start.begin (left.length + 1, id)) =
        (false, moment) →
      Passes setting target (step :: left) id start moment
  | inside {target step left id start front candidate back before moment} :
      start.failed.contains (left.length + 1, id) = false →
      setting.related target.combinator id = front ++ candidate :: back →
      tryEach (setting.attempt step left) front (start.begin (left.length + 1, id)) =
        (false, before) →
      setting.stepHolds true step candidate = true →
      Passes setting step left candidate before moment →
      Passes setting target (step :: left) id start moment

/-- The search as it is at some moment while a selector is held against a node. -/
inductive Reaches (setting : Setting) (checkTag : Bool) (selector : Selector) (id : NodeId) :
    Search → Prop where
  | start : Reaches setting checkTag selector id {}
  | left {moment : Search} : setting.stepHolds checkTag selector.target id = true →
      setting.Passes selector.target selector.left id {} moment →
      Reaches setting checkTag selector id moment

theorem reaches_searchFrom (setting : Setting) (checkTag : Bool) (selector : Selector)
    (id : NodeId) :
    setting.Reaches checkTag selector id (setting.searchFrom checkTag selector id).2 := by
  rw [searchFrom_eq]
  split
  next h => exact .left h .leave
  next => exact .start

end Setting

namespace Search

/-- What holds of a search for the steps `all`, the last first, at every moment; `ongoing` are the
walks that have begun and have not failed. -/
structure Orderly (setting : Setting) (all : List Step) (ongoing : List (Nat × NodeId))
    (search : Search) : Prop where
  nodup : search.walks.Nodup
  range : ∀ key ∈ search.walks,
    0 < key.1 ∧ key.1 < all.length ∧ setting.tree.contains key.2 = true
  settled : ∀ key ∈ search.walks, search.failed.contains key = true ∨ key ∈ ongoing
  walked : ∀ key, search.failed.contains key = true → key ∈ search.walks
  begun : ∀ key ∈ ongoing, key ∈ search.walks
  sound : search.Sound setting all

/-- What a call leaves: an orderly search, and no walk that is still going on if it failed. -/
def Leaves (setting : Setting) (all : List Step) (ongoing : List (Nat × NodeId))
    (result : Bool × Search) : Prop :=
  ∃ rest, result.2.Orderly setting all rest ∧ (result.1 = false → rest = ongoing)

variable {setting : Setting} {all : List Step} {ongoing : List (Nat × NodeId)} {search : Search}
  {key : Nat × NodeId}

theorem orderly_empty : Orderly setting all [] {} where
  nodup := List.nodup_nil
  range := nofun
  settled := nofun
  walked _ hc := absurd hc (by simp)
  begun := nofun
  sound _ hc := absurd hc (by simp)

theorem Leaves.of_false {found : Bool} (h : Leaves setting all ongoing (found, search))
    (hf : found = false) : search.Orderly setting all ongoing := by
  obtain ⟨rest, ho, hr⟩ := h
  exact hr hf ▸ ho

theorem Orderly.begin (h : search.Orderly setting all ongoing)
    (hk : search.failed.contains key = false) (hn : key ∉ ongoing) (hpos : 0 < key.1)
    (hlt : key.1 < all.length) (hc : setting.tree.contains key.2 = true) :
    (search.begin key).Orderly setting all (key :: ongoing) where
  nodup := by
    refine List.nodup_cons.mpr ⟨fun hm => ?_, h.nodup⟩
    rcases h.settled key hm with hs | hs
    · exact absurd (hk.symm.trans hs) nofun
    · exact hn hs
  range := List.forall_mem_cons.mpr ⟨⟨hpos, hlt, hc⟩, h.range⟩
  settled := List.forall_mem_cons.mpr ⟨.inr List.mem_cons_self, fun other ho =>
    (h.settled other ho).imp_right (List.mem_cons_of_mem key)⟩
  walked other ho := List.mem_cons_of_mem key (h.walked other ho)
  begun := List.forall_mem_cons.mpr ⟨List.mem_cons_self, fun other ho =>
    List.mem_cons_of_mem key (h.begun other ho)⟩
  sound := h.sound

theorem Orderly.giveUp (h : search.Orderly setting all (key :: ongoing))
    (hs : (search.giveUp key).Sound setting all) :
    (search.giveUp key).Orderly setting all ongoing where
  nodup := h.nodup
  range := h.range
  settled other ho := by
    rw [contains_giveUp]
    rcases h.settled other ho with hf | hm
    · exact .inl (.inr hf)
    · exact (List.mem_cons.mp hm).imp (fun he => .inl he.symm) id
  walked other ho := by
    rcases contains_giveUp.mp ho with rfl | hf
    · exact h.begun _ List.mem_cons_self
    · exact h.walked other hf
  begun other ho := h.begun other (List.mem_cons_of_mem key ho)
  sound := hs

end Search

open Search

theorem tryEach_leaves {setting : Setting} {all : List Step} {ongoing : List (Nat × NodeId)}
    {attempt : NodeId → Search → Bool × Search}
    (step : ∀ id search, search.Orderly setting all ongoing →
      Leaves setting all ongoing (attempt id search))
    (ids : List NodeId) {search : Search} (hs : search.Orderly setting all ongoing) :
    Leaves setting all ongoing (tryEach attempt ids search) := by
  induction ids generalizing search with
  | nil => exact ⟨ongoing, hs, fun _ => rfl⟩
  | cons id rest ih =>
    have hl := step id search hs
    rw [tryEach]
    cases he : attempt id search with
    | mk found after =>
      rw [he] at hl
      cases found with
      | true => exact hl
      | false => exact ih (hl.of_false rfl)

namespace Setting

variable {setting : Setting} {all : List Step} {ongoing : List (Nat × NodeId)} {target step : Step}
  {left : List Step} {id : NodeId} {search : Search}

/-- A walk may begin where no failure is noted: those that go on are for more steps. -/
theorem orderly_begin (ha : (target :: step :: left) <:+ all)
    (he : setting.tree.isElement id = true)
    (ho : ∀ key ∈ ongoing, (step :: left).length < key.1)
    (hk : search.failed.contains (left.length + 1, id) = false)
    (hs : search.Orderly setting all ongoing) :
    (search.begin (left.length + 1, id)).Orderly setting all ((left.length + 1, id) :: ongoing) ∧
      ∀ key ∈ (left.length + 1, id) :: ongoing, left.length < key.1 := by
  refine ⟨hs.begin hk (fun hm => ?_) (Nat.succ_pos _) ?_ (Tree.contains_of_isElement he), ?_⟩
  · exact Nat.lt_irrefl _ (ho _ hm)
  · have hle := ha.length_le
    simp only [List.length_cons] at hle
    omega
  · exact List.forall_mem_cons.mpr ⟨Nat.lt_succ_self _, fun key hm => Nat.lt_of_succ_lt (ho key hm)⟩

theorem walk_leaves
    (hl : ∀ other search, setting.tree.isElement other = true →
      search.Orderly setting all ongoing →
      Leaves setting all ongoing (setting.leftHolds left step.combinator other search))
    (ids : List NodeId) (hs : search.Orderly setting all ongoing) :
    Leaves setting all ongoing (tryEach (setting.attempt step left) ids search) := by
  refine tryEach_leaves (fun other search ho => ?_) ids hs
  rw [attempt]
  split
  next hh => exact hl other search (isElement_of_stepHolds hh) ho
  next => exact ⟨ongoing, ho, fun _ => rfl⟩

section Forest

variable (f : setting.tree.Forest setting.tree.children)

include f

/-- The search for the steps to the left leaves only true failures, and its own walks all end when
it fails. -/
theorem leftHolds_leaves (ha : (target :: left) <:+ all) (he : setting.tree.isElement id = true)
    (ho : ∀ key ∈ ongoing, left.length < key.1) (hs : search.Orderly setting all ongoing) :
    Leaves setting all ongoing (setting.leftHolds left target.combinator id search) := by
  induction left generalizing target id ongoing search with
  | nil => exact ⟨ongoing, hs, fun _ => rfl⟩
  | cons step left ih =>
    have hstep : (step :: left) <:+ all := (List.suffix_cons target _).trans ha
    have hsound : Sound setting all
        (setting.leftHolds (step :: left) target.combinator id search).2 :=
      (leftHolds_spec f ha he hs.sound).2
    rw [leftHolds_cons] at hsound ⊢
    by_cases hk : search.failed.contains (left.length + 1, id) = true
    · rw [if_pos hk]
      exact ⟨ongoing, hs, fun _ => rfl⟩
    · rw [if_neg hk] at hsound ⊢
      obtain ⟨hb, ho⟩ := orderly_begin ha he ho (Bool.eq_false_iff.mpr hk) hs
      have hwalk := walk_leaves (fun _ _ he hs => ih hstep he ho hs)
        (setting.related target.combinator id) hb
      split at hsound
      next after hr =>
        rw [hr] at hwalk
        obtain ⟨rest, hrest, -⟩ := hwalk
        exact ⟨rest, hrest, nofun⟩
      next after hr =>
        rw [hr] at hwalk
        exact ⟨ongoing, (hwalk.of_false rfl).giveUp hsound, fun _ => rfl⟩

theorem orderly_of_walk {ids : List NodeId} {before : Search}
    (ha : (target :: step :: left) <:+ all) (he : setting.tree.isElement id = true)
    (ho : ∀ key ∈ ongoing, (step :: left).length < key.1)
    (hs : search.Orderly setting all ongoing)
    (hk : search.failed.contains (left.length + 1, id) = false)
    (hw : tryEach (setting.attempt step left) ids (search.begin (left.length + 1, id)) =
      (false, before)) :
    before.Orderly setting all ((left.length + 1, id) :: ongoing) := by
  obtain ⟨hb, ho⟩ := orderly_begin ha he ho hk hs
  have hl := walk_leaves (fun _ _ he hs =>
    leftHolds_leaves f ((List.suffix_cons target _).trans ha) he ho hs) ids hb
  rw [hw] at hl
  exact hl.of_false rfl

theorem Passes.orderly {start moment : Search} (h : setting.Passes target left id start moment)
    (ha : (target :: left) <:+ all) (he : setting.tree.isElement id = true)
    (ho : ∀ key ∈ ongoing, left.length < key.1) (hs : start.Orderly setting all ongoing) :
    ∃ rest, moment.Orderly setting all rest := by
  induction h generalizing ongoing with
  | enter => exact ⟨ongoing, hs⟩
  | leave =>
    obtain ⟨rest, hr, -⟩ := leftHolds_leaves f ha he ho hs
    exact ⟨rest, hr⟩
  | between hk _ hw => exact ⟨_, orderly_of_walk f ha he ho hs hk hw⟩
  | @inside target step left id _ _ _ _ _ _ hk _ hw hh _ ih =>
    -- all walks that go on, the new one among them, are for more steps than the next call seeks
    have ho' : ∀ key ∈ (left.length + 1, id) :: ongoing, left.length < key.1 :=
      (orderly_begin ha he ho hk hs).2
    exact ih ((List.suffix_cons target _).trans ha) (isElement_of_stepHolds hh) ho'
      (orderly_of_walk f ha he ho hs hk hw)

theorem Reaches.orderly {checkTag : Bool} {selector : Selector} {moment : Search}
    (h : setting.Reaches checkTag selector id moment) :
    ∃ ongoing, moment.Orderly setting selector.steps.reverse ongoing := by
  cases h with
  | start => exact ⟨[], orderly_empty⟩
  | left hh hp =>
    have ha : (selector.target :: selector.left) <:+ selector.steps.reverse :=
      selector.reverse_steps ▸ List.suffix_rfl
    exact hp.orderly f ha (isElement_of_stepHolds hh) (List.forall_mem_nil _) orderly_empty

end Forest

theorem leftFound_take_iff {steps : List Step} {index : Nat} {combinator : Combinator}
    (hpos : 0 < index) (hlt : index < steps.length) :
    setting.LeftFound (steps.take index).reverse combinator id ↔
      ∃ nodes other, setting.Assignment (steps.take index) nodes ∧
        nodes.getLast? = some other ∧ setting.Joined combinator other id := by
  cases hr : (steps.take index).reverse with
  | nil =>
    have hlen : min index steps.length = 0 := by
      rw [← List.length_take, List.reverse_eq_nil_iff.mp hr, List.length_nil]
    omega
  | cons step left =>
    rw [← List.reverse_reverse (steps.take index), hr, List.reverse_cons]
    constructor
    · rintro ⟨other, hj, hf⟩
      obtain ⟨nodes, ha, hl⟩ := leftFound_iff.mp hf
      exact ⟨nodes, other, ha, hl, hj⟩
    · rintro ⟨nodes, other, ha, hl, hj⟩
      exact ⟨other, hj, leftFound_iff.mpr ⟨nodes, ha, hl⟩⟩

theorem not_leftFound_take {steps : List Step} {index : Nat}
    (hs : search.Sound setting steps.reverse) (hlt : index < steps.length)
    (hf : search.failed.contains (index, id) = true) :
    ¬ setting.LeftFound (steps.take index).reverse steps[index].combinator id := by
  have ha : (steps[index] :: (steps.take index).reverse) <:+ steps.reverse := by
    rw [← List.reverse_concat, ← List.take_succ_eq_append_getElem hlt]
    exact List.reverse_suffix.mpr (List.take_prefix _ _)
  have hlen : (steps.take index).reverse.length = index := by
    rw [List.length_reverse, List.length_take_of_le hlt.le]
  exact hs ha (hlen.symm ▸ hf)

/-- While a selector is held against a node, no pair is walked from twice, whatever is tried again.
Each failure that is noted comes from one of the walks and is true, at every moment. -/
theorem walks_once (setting : Setting) (h : setting.tree.Reachable) (checkTag : Bool)
    (selector : Selector) (id : NodeId) :
    setting.Reaches checkTag selector id (setting.searchFrom checkTag selector id).2 ∧
      ∀ moment, setting.Reaches checkTag selector id moment →
        moment.walks.Nodup ∧
        moment.walks.length ≤ (selector.steps.length - 1) * setting.tree.size ∧
        ∀ index node, moment.failed.contains (index, node) = true →
          (index, node) ∈ moment.walks ∧ 0 < index ∧
            ∃ step, selector.steps[index]? = some step ∧
              ¬ ∃ nodes other, setting.Assignment (selector.steps.take index) nodes ∧
                nodes.getLast? = some other ∧ setting.Joined step.combinator other node := by
  refine ⟨reaches_searchFrom setting checkTag selector id, fun moment hm => ?_⟩
  obtain ⟨ongoing, ho⟩ := hm.orderly h.forest
  refine ⟨ho.nodup, length_le_mul ho.nodup fun key hk => ?_, fun index node hf => ?_⟩
  · obtain ⟨hpos, hlt, hc⟩ := ho.range key hk
    rw [List.length_reverse] at hlt
    exact ⟨hpos, by omega, Tree.contains_iff.mp hc⟩
  · have hwalked := ho.walked _ hf
    obtain ⟨hpos, hlt, -⟩ := ho.range _ hwalked
    rw [List.length_reverse] at hlt
    refine ⟨hwalked, hpos, selector.steps[index], List.getElem?_eq_getElem hlt, ?_⟩
    rw [← leftFound_take_iff hpos hlt]
    exact not_leftFound_take ho.sound hlt hf

/-- Four nested elements are too few for `* * * * *`. The search comes to the outermost one with the
third step twice and walks from there once. -/
theorem walks_once_of_nested :
    let tree := Tree.grow [.appendElement .root "a" [], .appendElement ⟨1⟩ "a" [],
      .appendElement ⟨2⟩ "a" [], .appendElement ⟨3⟩ "a" []]
    let selector : Selector := ⟨[{}, {}, {}, {}, {}], nofun⟩
    let search := (searchFrom { tree } true selector ⟨4⟩).2
    tree.Reachable ∧
      search.walks = [(3, ⟨1⟩), (3, ⟨2⟩), (2, ⟨1⟩), (1, ⟨1⟩), (2, ⟨2⟩), (3, ⟨3⟩), (4, ⟨4⟩)] ∧
      search.walks.Nodup := by
  intro tree selector search
  have hr : tree.Reachable := ⟨_, rfl⟩
  have h1 : related { tree } .initial ⟨1⟩ = [.root] := rfl
  have h2 : related { tree } .initial ⟨2⟩ = [⟨1⟩, .root] := rfl
  have h3 : related { tree } .initial ⟨3⟩ = [⟨2⟩, ⟨1⟩, .root] := rfl
  have h4 : related { tree } .initial ⟨4⟩ = [⟨3⟩, ⟨2⟩, ⟨1⟩, .root] := rfl
  have hs : ∀ id ∈ [⟨1⟩, ⟨2⟩, ⟨3⟩, ⟨4⟩], stepHolds { tree } true {} id = true := by
    simp only [List.forall_mem_cons]
    exact ⟨rfl, rfl, rfl, rfl, nofun⟩
  have hroot : stepHolds { tree } true {} .root = false := rfl
  refine ⟨hr, ?_, ?_⟩
  · simp only [List.forall_mem_cons] at hs
    simp [search, searchFrom, selector, leftHolds, tryEach, h1, h2, h3, h4, hs, hroot]
  · obtain ⟨hl, hm⟩ := walks_once { tree } hr true selector ⟨4⟩
    exact (hm _ hl).1

end Setting

end TreeQuery
