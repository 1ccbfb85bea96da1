import TreeQuery.Query.Select
import TreeQuery.Proofs.Query.Narrow

/-! Queries on a pool of threads against a session that is asked once.
Of the pool it is assumed that it keeps the order of the items. Then judging on it is filtering, and
a query on it narrows as a session does that starts at the document node. -/
namespace TreeQuery

namespace Pool

/-- A pool that answers for every item, makes no item up and keeps the items in their order. -/
structure KeepsOrder (pool : Pool) : Prop where
  kept : ∀ {α : Type} (keep : α → Bool) (items : List α),
    (pool.filter keep items).Perm (items.filter keep)
  order : ∀ {α : Type} (keep : α → Bool) (items : List α), (pool.filter keep items).Sublist items
  mapped : ∀ {α β : Type} (answer : α → β) (items : List α) (place : Nat),
    (pool.map answer items)[place]? = items[place]?.map answer

theorem tasks_keepsOrder : tasks.KeepsOrder := by
  have hfilter : ∀ {α : Type} (keep : α → Bool) (items : List α),
      tasks.filter keep items = items.filter keep := by
    intro α keep items
    have hjudged : ((fun entry : α × Task Bool => entry.2.get) ∘
        fun item => (item, Task.spawn fun () => keep item)) = keep := rfl
    have hitem : (Prod.fst ∘ fun item => (item, Task.spawn fun () => keep item)) = id := rfl
    simp only [tasks]
    rw [List.filter_map, List.map_map, hjudged, hitem, List.map_id]
  constructor
  case kept => exact fun keep items => .of_eq (hfilter keep items)
  case order => exact fun keep items => hfilter keep items ▸ List.filter_sublist
  case mapped =>
    intro α β answer items place
    simp only [tasks]
    rw [List.map_map, List.getElem?_map]
    rfl

namespace KeepsOrder

variable {pool : Pool} (h : pool.KeepsOrder)

include h

/-- Of the sublists of a list only one has the items that are kept. -/
theorem filter_eq {α : Type} (keep : α → Bool) (items : List α) :
    pool.filter keep items = items.filter keep := by
  have hall : ∀ item ∈ pool.filter keep items, keep item = true := fun item hi =>
    (List.mem_filter.mp ((h.kept keep items).mem_iff.mp hi)).2
  have hsub := (h.order keep items).filter keep
  rw [List.filter_eq_self.mpr hall] at hsub
  exact hsub.eq_of_length (h.kept keep items).length_eq

theorem map_eq {α β : Type} (answer : α → β) (items : List α) :
    pool.map answer items = items.map answer := by
  refine List.ext_getElem? fun place => ?_
  rw [h.mapped, List.getElem?_map]

theorem narrow_eq (setting : Setting) (roots : List NodeId) (list : SelectorList) :
    pool.narrow setting roots list = setting.narrow roots list := by
  unfold Pool.narrow Setting.narrow
  congr 1
  funext found member
  rw [h.filter_eq]

theorem selectMany_eq (tree : Tree) (options : Options) (texts : List String) :
    pool.selectMany tree options texts =
      texts.map fun text => pool.select { tree, options } text :=
  h.map_eq _ texts

end KeepsOrder

end Pool

namespace Session

def ofSetting (setting : Setting) : Session :=
  ((ofRoot setting.tree).withOptions setting.options).withPseudo setting.pseudo

def foundBy (session : Session) (text : String) : Except SelectorError NodeSet :=
  (session.find text).map found

theorem foundBy_ofSetting (setting : Setting) (text : String) :
    (ofSetting setting).foundBy text =
      match SelectorList.parse text with
      | .error e => .error e
      | .ok list =>
        match list.supported with
        | .error e => .error e
        | .ok () => .ok (setting.narrow [.root] list) := by
  have hroot : (ofRoot setting.tree).found.toList = [.root] := ArrivalSet.toList_ofList _
  rw [foundBy, find_eq]
  cases SelectorList.parse text with
  | error e => rfl
  | ok list =>
    dsimp only
    rw [findList_eq]
    cases list.supported with
    | error e => rfl
    | ok _ => exact congrArg (fun roots => Except.ok (setting.narrow roots list)) hroot

end Session

open Session

theorem Pool.KeepsOrder.select_eq_foundBy {pool : Pool} (h : pool.KeepsOrder) (setting : Setting)
    (text : String) : pool.select setting text = (ofSetting setting).foundBy text := by
  rw [foundBy_ofSetting, Pool.select]
  cases SelectorList.parse text with
  | error e => rfl
  | ok list =>
    dsimp only
    cases list.supported with
    | error e => rfl
    | ok _ => exact congrArg Except.ok (h.narrow_eq setting [.root] list)

/-- On a pool that keeps the order, a query answers as a session asked once: with the same error or
the same nodes in the same order. Of many queries each answers as if it were the only one. -/
theorem concurrent_eq_sequential {pool : Pool} (h : pool.KeepsOrder) (tree : Tree)
    (options : Options) :
    (∀ (pseudo : PseudoRules) (text : String), pool.select ⟨tree, options, pseudo⟩ text =
      ((((ofRoot tree).withOptions options).withPseudo pseudo).find text).map found) ∧
    ∀ (texts : List String) (place : Nat), (pool.selectMany tree options texts)[place]? =
      texts[place]?.map fun text =>
        ((((ofRoot tree).withOptions options).withPseudo .always).find text).map found := by
  refine ⟨fun pseudo text => h.select_eq_foundBy ⟨tree, options, pseudo⟩ text,
    fun texts place => ?_⟩
  rw [h.selectMany_eq, List.getElem?_map]
  congr 1
  funext text
  exact h.select_eq_foundBy ⟨tree, options, .always⟩ text

/-- Two elements that both members of a list find, and a text before it that cannot be read. -/
theorem tasks_find_once :
    let tree := Tree.grow [.appendElement .root "a" [], .appendElement ⟨1⟩ "a" []]
    let many := Pool.tasks.selectMany tree {} ["[", "*,*"]
    Pool.tasks.KeepsOrder ∧
      (Pool.tasks.select ⟨tree, {}, .structural⟩ "*,*").map ArrivalSet.toList =
        .ok [⟨1⟩, ⟨2⟩] ∧
      many[0]? = some (.error (.malformed "[" 1 .expectedAttributeName)) ∧
      many[1]?.map (fun found => found.map ArrivalSet.toList) = some (.ok [⟨1⟩, ⟨2⟩]) := by
  intro tree many
  let member : Selector := ⟨[{}], List.cons_ne_nil _ _⟩
  have hread : SelectorList.parse "*,*" = .ok ⟨[member, member]⟩ := by decide +kernel
  have hrefused : SelectorList.parse "[" = .error (.malformed "[" 1 .expectedAttributeName) := by
    decide +kernel
  have hfound : ∀ pseudo, ((ofSetting ⟨tree, {}, pseudo⟩).foundBy "*,*").map ArrivalSet.toList =
      .ok [⟨1⟩, ⟨2⟩] := by
    intro pseudo
    rw [foundBy_ofSetting, hread]
    change Except.ok (Setting.narrow ⟨tree, {}, pseudo⟩ [.root] _).toList = _
    rw [Setting.toList_narrow]
    rfl
  obtain ⟨hone, hmany⟩ := concurrent_eq_sequential Pool.tasks_keepsOrder tree {}
  refine ⟨Pool.tasks_keepsOrder, ?_, ?_, ?_⟩
  · rw [hone]
    exact hfound .structural
  · rw [hmany]
    change some ((ofSetting ⟨tree, {}, .always⟩).foundBy "[") = _
    rw [foundBy_ofSetting, hrefused]
  · rw [hmany]
    exact congrArg some (hfound .always)

end TreeQuery
