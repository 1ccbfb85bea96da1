import TreeQuery.Proofs.Query.Narrow
import TreeQuery.Proofs.Selector.Support

/-! Sessions through whole runs of requests, in any order, some of them refused.
A ledger notes which lists were sought and with which options and pseudo rules, from the requests
alone. What a session shows at the end is what its start nodes and the ledger say. -/
namespace TreeQuery

inductive Request where
  | find (text : String)
  | findList (list : SelectorList)
  | options (options : Options)
  | pseudo (pseudo : PseudoRules)
  | within (text : String)

namespace Session

def answer (session : Session) : Request → Except SelectorError Session
  | .find text => session.find text
  | .findList list => session.findList list
  | .options options => .ok (session.withOptions options)
  | .pseudo pseudo => .ok (session.withPseudo pseudo)
  | .within text => session.within text

/-- The session that a request leaves. What `within` answers is a session apart. -/
def after (session : Session) : Request → Session
  | .find text => (session.ask text).2
  | .findList list => (session.askList list).2
  | .options options => session.withOptions options
  | .pseudo pseudo => session.withPseudo pseudo
  | .within text => (session.askWithin text).2

def run (session : Session) (requests : List Request) : Session :=
  requests.foldl after session

/-- The sessions at the start of a run, with their start nodes. -/
inductive Starts (tree : Tree) : List NodeId → Session → Prop where
  | root : Starts tree [.root] (.ofRoot tree)
  | nodes {ids session} : ofNodes tree ids = .ok session → Starts tree ids session

end Session

/-- What is in force, and the lists sought so far, each with what was in force for it. -/
structure Ledger where
  setting : Setting
  sought : List (Setting × SelectorList) := []

namespace Ledger

def seek (ledger : Ledger) (list : SelectorList) : Ledger :=
  { ledger with sought := ledger.sought ++ [(ledger.setting, list)] }

/-- Only a text that can be read and a list that can be evaluated are sought. -/
def note (ledger : Ledger) : Request → Ledger
  | .find text =>
    match SelectorList.parse text with
    | .ok list => ledger.seek list
    | .error _ => ledger
  | .findList list => if list.Searchable then ledger.seek list else ledger
  | .options options => { ledger with setting := { ledger.setting with options } }
  | .pseudo pseudo => { ledger with setting := { ledger.setting with pseudo } }
  | .within _ => ledger

def of (tree : Tree) (requests : List Request) : Ledger :=
  requests.foldl note { setting := { tree } }

structure OnTree (ledger : Ledger) (tree : Tree) : Prop where
  setting : ledger.setting.tree = tree
  sought : ∀ sought ∈ ledger.sought, sought.1.tree = tree

variable {ledger : Ledger} {tree : Tree}

theorem OnTree.seek (h : ledger.OnTree tree) (list : SelectorList) :
    (ledger.seek list).OnTree tree :=
  ⟨h.setting, List.forall_mem_append.mpr ⟨h.sought, List.forall_mem_singleton.mpr h.setting⟩⟩

theorem OnTree.note (h : ledger.OnTree tree) (request : Request) :
    (ledger.note request).OnTree tree := by
  cases request with
  | find text =>
    rw [Ledger.note]
    cases SelectorList.parse text with
    | ok list => exact h.seek list
    | error e => exact h
  | findList list =>
    rw [Ledger.note]
    split
    · exact h.seek list
    · exact h
  | options options => exact ⟨h.setting, h.sought⟩
  | pseudo pseudo => exact ⟨h.setting, h.sought⟩
  | within text => exact h

theorem onTree_of (tree : Tree) (requests : List Request) : (of tree requests).OnTree tree := by
  have main : ∀ ledger : Ledger, ledger.OnTree tree →
      (requests.foldl Ledger.note ledger).OnTree tree := by
    induction requests with
    | nil => exact fun _ h => h
    | cons request requests ih => exact fun ledger h => ih _ (h.note request)
  exact main _ ⟨rfl, nofun⟩

end Ledger

theorem Setting.isElement_of_listHolds {setting : Setting} {list : SelectorList} {id : NodeId}
    (h : setting.listHolds list id = true) : setting.tree.isElement id = true := by
  obtain ⟨member, -, hm⟩ := List.any_eq_true.mp h
  rw [selectorHolds_eq, Bool.and_eq_true] at hm
  exact (stepHolds_iff.mp hm.1).isElement

theorem Setting.mem_narrow_iff_below {setting : Setting}
    (f : setting.tree.Forest setting.tree.children) {roots : List NodeId} {list : SelectorList}
    {id : NodeId} : id ∈ (setting.narrow roots list).toList ↔
      (∃ root ∈ roots, setting.tree.Below id root) ∧ setting.listHolds list id = true := by
  rw [mem_narrow_iff f, and_iff_right_of_imp fun h => isElement_of_listHolds h.2]

namespace Session

variable {session : Session} {start : List NodeId} {ledger : Ledger} {list : SelectorList}

theorem findList_of_searchable (session : Session) (h : list.Searchable) :
    session.findList list = .ok { session with
      found :=
        if session.started then .ofList (session.found.toList.filter (session.setting.listHolds list))
        else session.setting.narrow session.found.toList list
      started := true
      last := some list } := by
  rw [findList_eq, SelectorList.supported_eq_ok_iff.mpr h]

theorem findList_of_not_searchable (session : Session) (h : ¬ list.Searchable) :
    ∃ e, session.findList list = .error e := by
  rw [findList_eq]
  cases hs : list.supported with
  | error e => exact ⟨e, rfl⟩
  | ok => exact absurd (SelectorList.supported_eq_ok_iff.mp hs) h

/-- Asked for a list, a session becomes the one that it answers, or stays as it was. -/
theorem askList_snd (session : Session) (list : SelectorList) :
    (session.askList list).2 = (session.findList list).toOption.getD session := by
  rw [findList, askList]
  cases list.supported <;> rfl

theorem ask_snd (session : Session) (text : String) :
    (session.ask text).2 = (session.find text).toOption.getD session := by
  rw [find, ask]
  cases SelectorList.parse text with
  | error e => rfl
  | ok list => exact session.askList_snd list

/-- What a session shows, as its start nodes and a ledger tell it. -/
structure Shows (session : Session) (start : List NodeId) (ledger : Ledger) : Prop where
  setting : session.setting = ledger.setting
  waiting : ledger.sought = [] →
    session.found.toList = start.eraseDups ∧ session.started = false ∧ session.last = none
  order : ∀ first rest, ledger.sought = first :: rest → session.found.toList =
    (first.1.narrow start.eraseDups first.2).toList.filter fun id =>
      rest.all fun sought => sought.1.listHolds sought.2 id
  latest : ∀ sought ∈ ledger.sought.getLast?,
    session.started = true ∧ session.last = some sought.2

theorem Starts.shows {tree : Tree} (h : Starts tree start session) :
    session.Shows start (.of tree []) := by
  have main : ∀ {session : Session}, session = ⟨{ tree }, .ofList start, false, none⟩ →
      session.Shows start (.of tree []) := by
    rintro _ rfl
    exact ⟨rfl, fun _ => ⟨ArrivalSet.toList_ofList start, rfl, rfl⟩, nofun, nofun⟩
  cases h with
  | root => exact main rfl
  | nodes h =>
    rw [ofNodes] at h
    split at h
    · cases h
    · cases h
      exact main rfl

namespace Shows

variable (h : session.Shows start ledger)

include h

theorem nodup (hs : ledger.sought ≠ []) : session.found.toList.Nodup := by
  obtain ⟨first, rest, hf⟩ := List.exists_cons_of_ne_nil hs
  rw [h.order first rest hf, Setting.narrow_eq]
  exact (ArrivalSet.nodup_ofList _).filter _

/-- The first list narrows; each later one filters by a check of its own. -/
theorem findList (hl : list.Searchable) :
    ∃ next, session.findList list = .ok next ∧ next.Shows start (ledger.seek list) := by
  refine ⟨_, session.findList_of_searchable hl, h.setting, fun hs => ?_, fun first rest hs => ?_,
    fun sought hs => ?_⟩
  · exact absurd hs (List.append_ne_nil_of_right_ne_nil _ (List.cons_ne_nil _ _))
  · cases hsought : ledger.sought with
    | nil =>
      obtain ⟨hfound, hstarted, -⟩ := h.waiting hsought
      rw [Ledger.seek, hsought] at hs
      cases hs
      rw [hstarted, hfound, h.setting]
      exact (List.filter_eq_self.mpr fun _ _ => rfl).symm
    | cons front back =>
      have hne : ledger.sought ≠ [] := hsought ▸ List.cons_ne_nil front back
      obtain ⟨latest, hlatest⟩ := Option.ne_none_iff_exists'.mp
        (mt List.getLast?_eq_none_iff.mp hne)
      rw [Ledger.seek, hsought, List.cons_append] at hs
      cases hs
      rw [(h.latest latest hlatest).1, if_pos rfl,
        ArrivalSet.toList_ofList_of_nodup ((h.nodup hne).filter _), h.order _ _ hsought,
        List.filter_filter, h.setting]
      refine List.filter_congr fun id _ => ?_
      rw [List.all_append, List.all_cons, List.all_nil, Bool.and_true, Bool.and_comm]
  · rw [Ledger.seek, List.getLast?_concat] at hs
    cases hs
    exact ⟨rfl, rfl⟩

theorem after (request : Request) : (session.after request).Shows start (ledger.note request) := by
  cases request with
  | find text =>
    have ha : session.after (.find text) = (session.find text).toOption.getD session :=
      session.ask_snd text
    rw [ha, find_eq, Ledger.note]
    cases hp : SelectorList.parse text with
    | error e => exact h
    | ok list =>
      obtain ⟨next, hn, hs⟩ := h.findList (regular_of_parse hp).searchable
      dsimp only
      rw [hn]
      exact hs
  | findList list =>
    have ha : session.after (.findList list) = (session.findList list).toOption.getD session :=
      session.askList_snd list
    rw [ha, Ledger.note]
    by_cases hl : list.Searchable
    · obtain ⟨next, hn, hs⟩ := h.findList hl
      rw [hn, if_pos hl]
      exact hs
    · obtain ⟨e, he⟩ := session.findList_of_not_searchable hl
      rw [he, if_neg hl]
      exact h
  | options options =>
    refine ⟨?_, h.waiting, h.order, h.latest⟩
    exact congrArg (fun setting : Setting => { setting with options }) h.setting
  | pseudo pseudo =>
    refine ⟨?_, h.waiting, h.order, h.latest⟩
    exact congrArg (fun setting : Setting => { setting with pseudo }) h.setting
  | within text => exact h

theorem run (requests : List Request) :
    (session.run requests).Shows start (requests.foldl Ledger.note ledger) := by
  induction requests generalizing session ledger with
  | nil => exact h
  | cons request requests ih => exact ih (h.after request)

theorem mem_iff {tree : Tree} (ht : ledger.OnTree tree) (hr : tree.Reachable)
    (hs : ledger.sought ≠ []) {id : NodeId} : id ∈ session.found.toList ↔
      (∃ root ∈ start, tree.Below id root) ∧
        ∀ sought ∈ ledger.sought, sought.1.listHolds sought.2 id = true := by
  obtain ⟨first, rest, hf⟩ := List.exists_cons_of_ne_nil hs
  have htree : first.1.tree = tree := ht.sought first (hf ▸ List.mem_cons_self)
  have hforest : first.1.tree.Forest first.1.tree.children := htree ▸ hr.forest
  rw [h.order first rest hf, List.mem_filter, Setting.mem_narrow_iff_below hforest, hf,
    List.forall_mem_cons, List.all_eq_true, htree, and_assoc]
  simp only [List.mem_eraseDups]

end Shows

/-- How a session answers its next request. -/
structure Answers (session : Session) : Prop where
  find_error : ∀ text e, session.find text = .error e ↔ SelectorList.parse text = .error e
  find_ok : ∀ text next, session.find text = .ok next → next.started = true ∧
    ∃ list, SelectorList.parse text = .ok list ∧ next.last = some list
  findList_error : ∀ list, (∃ e, session.findList list = .error e) ↔
    ∃ member ∈ list.members, ∃ step ∈ member.steps, step.element = some "" ∨ step.ns ≠ none ∨
      ∃ test ∈ step.tests, test.ns ≠ none
  findList_ok : ∀ list next, session.findList list = .ok next →
    next.started = true ∧ next.last = some list
  within_error : ∀ text e, session.within text = .error e ↔ SelectorList.parse text = .error e
  within_ok : ∀ text inner, session.within text = .ok inner → ∃ list,
    SelectorList.parse text = .ok list ∧ inner.setting = session.setting ∧
      inner.started = true ∧ inner.last = some list ∧
      (∀ id, id ∈ inner.found.toList ↔
        (∃ root ∈ session.found.toList, session.setting.tree.Below id root) ∧
          session.setting.listHolds list id = true) ∧
      inner.found.toList = (list.members.flatMap fun member =>
        session.found.toList.flatMap fun root => (session.setting.tree.descendants root).filter
          (session.setting.selectorHolds true member)).eraseDups
  refused : ∀ request e, session.answer request = .error e → session.after request = session
  apart : ∀ text, session.after (.within text) = session

theorem find_error_iff {text : String} {e : SelectorError} (session : Session) :
    session.find text = .error e ↔ SelectorList.parse text = .error e := by
  rw [find_eq]
  cases hp : SelectorList.parse text with
  | error other => constructor <;> rintro ⟨⟩ <;> rfl
  | ok list =>
    dsimp only
    rw [session.findList_of_searchable (regular_of_parse hp).searchable]
    exact ⟨nofun, nofun⟩

theorem findList_ok {next : Session} (h : session.findList list = .ok next) :
    list.Searchable ∧ next.started = true ∧ next.last = some list := by
  by_cases hl : list.Searchable
  · rw [session.findList_of_searchable hl] at h
    cases h
    exact ⟨hl, rfl, rfl⟩
  · obtain ⟨e, he⟩ := session.findList_of_not_searchable hl
    cases he.symm.trans h

theorem setting_of_findList {next : Session} (h : session.findList list = .ok next) :
    next.setting = session.setting := by
  rw [session.findList_of_searchable (findList_ok h).1] at h
  cases h
  rfl

theorem find_ok {text : String} {next : Session} (h : session.find text = .ok next) :
    ∃ list, SelectorList.parse text = .ok list ∧ session.findList list = .ok next := by
  rw [find_eq] at h
  cases hp : SelectorList.parse text with
  | error e => rw [hp] at h; cases h
  | ok list => rw [hp] at h; exact ⟨list, rfl, h⟩

theorem within_of_parse {text : String} (session : Session)
    (h : SelectorList.parse text = .ok list) : ∃ inner, session.within text = .ok inner ∧
      inner.found = session.setting.narrow session.found.toList list := by
  refine ⟨{ session with
    found := session.setting.narrow session.found.toList list
    started := true
    last := some list }, ?_, rfl⟩
  rw [within, askWithin, find_eq, h]
  exact findList_of_searchable _ (regular_of_parse h).searchable

theorem not_searchable_iff : ¬ list.Searchable ↔
    ∃ member ∈ list.members, ∃ step ∈ member.steps, step.element = some "" ∨ step.ns ≠ none ∨
      ∃ test ∈ step.tests, test.ns ≠ none := by
  simp only [SelectorList.Searchable, Step.searchable_iff, not_forall, not_and_or, not_not,
    exists_prop, ne_eq]

theorem answers (session : Session) (hr : session.setting.tree.Reachable) : session.Answers := by
  constructor
  case find_error => exact fun _ _ => session.find_error_iff
  case find_ok =>
    intro text next h
    obtain ⟨list, hp, hf⟩ := find_ok h
    exact ⟨(findList_ok hf).2.1, list, hp, (findList_ok hf).2.2⟩
  case findList_error =>
    intro list
    rw [← not_searchable_iff]
    refine ⟨?_, session.findList_of_not_searchable⟩
    rintro ⟨e, he⟩ hl
    cases he.symm.trans (session.findList_of_searchable hl)
  case findList_ok => exact fun _ _ h => (findList_ok h).2
  case within_error => exact fun _ _ => find_error_iff _
  case within_ok =>
    intro text inner h
    obtain ⟨list, hp, hf⟩ := find_ok h
    rw [findList_of_searchable _ (findList_ok hf).1] at hf
    cases hf
    exact ⟨list, hp, rfl, rfl, rfl, fun _ => Setting.mem_narrow_iff_below hr.forest,
      session.setting.toList_narrow session.found.toList list⟩
  case refused =>
    intro request e h
    have stays : ∀ {found : Except SelectorError Session}, found = .error e →
        found.toOption.getD session = session := by
      rintro _ rfl
      rfl
    cases request with
    | find text => exact (session.ask_snd text).trans (stays h)
    | findList list => exact (session.askList_snd list).trans (stays h)
    | options options => cases h
    | pseudo pseudo => cases h
    | within text => rfl
  case apart => exact fun _ => rfl

/-- After any run a session shows what its start nodes and the ledger tell: the start nodes until a
list has been sought, then those below them that satisfy every list sought, in the order of the first
search. Refused requests and `within` leave no trace. -/
theorem run_shows {tree : Tree} (hr : tree.Reachable) (hs : Starts tree start session)
    (requests : List Request) :
    (session.run requests).Shows start (.of tree requests) ∧
      ((Ledger.of tree requests).sought ≠ [] → ∀ id, id ∈ (session.run requests).found.toList ↔
        (∃ root ∈ start, tree.Below id root) ∧
          ∀ sought ∈ (Ledger.of tree requests).sought, sought.1.listHolds sought.2 id = true) ∧
      (session.run requests).Answers := by
  have hshows : (session.run requests).Shows start (.of tree requests) := hs.shows.run requests
  have htree := Ledger.onTree_of tree requests
  refine ⟨hshows, fun hne id => hshows.mem_iff htree hr hne, answers _ ?_⟩
  rw [hshows.setting, htree.setting]
  exact hr

/-- A search for every element, a refused one, and a search by place after the rules have changed. -/
theorem run_of_refused :
    let tree := Tree.grow [.appendElement .root "a" [], .appendElement ⟨1⟩ "a" []]
    let requests : List Request := [.findList ⟨[⟨[{}], nofun⟩]⟩,
      .findList ⟨[⟨[{ ns := some "x" }], nofun⟩]⟩, .pseudo .structural,
      .findList ⟨[⟨[{ pseudoClasses := ["empty"] }], nofun⟩]⟩]
    tree.Reachable ∧ Starts tree [.root] (.ofRoot tree) ∧
      ((ofRoot tree).run requests).found.toList = [⟨2⟩] := by
  intro tree requests
  have hr : tree.Reachable := ⟨_, rfl⟩
  have hs : Starts tree [.root] (.ofRoot tree) := .root
  refine ⟨hr, hs, ?_⟩
  obtain ⟨hshows, -, -⟩ := run_shows hr hs requests
  rw [hshows.order _ _ rfl, Setting.toList_narrow]
  rfl

end Session

end TreeQuery
