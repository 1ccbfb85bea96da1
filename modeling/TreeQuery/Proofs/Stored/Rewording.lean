import Mathlib.Data.Set.List
import Mathlib.Logic.Relation
import TreeQuery.Proofs.Stored.Restore
import TreeQuery.Query.Session

/-! Stored lists from any producer.
A stored list may be put in other words: its records may give their fields in another order, leave
out what is null, give fields that nothing reads, and be lists of what their fields hold. Whatever
is restored can be searched for without an error about its structure, and is restored alike from all
its wordings. A record that stands for a name is not reworded: with one more field it is no name. -/
namespace TreeQuery

open StoredValue

/-- The records of a stored list. -/
inductive RecordKind where
  | list
  | member
  | step
  | test
  deriving DecidableEq, Repr

namespace RecordKind

/-- All fields, in the order in which a list gives them. -/
def names : RecordKind → List String
  | .list => SelectorList.fieldNames
  | .member => Selector.fieldNames
  | .step => Step.fieldNames
  | .test => AttributeSelector.fieldNames

def required : RecordKind → List String
  | .list => ["selectors"]
  | .member => ["steps"]
  | .step => ["classes", "attributes", "pseudo_classes", "pseudo_elements", "combinator"]
  | .test => ["name", "operator"]

def optional : RecordKind → List String
  | .list | .member => []
  | .step => ["element", "namespace", "id"]
  | .test => ["namespace", "value"]

/-- The field that lists further records. -/
def inner? : RecordKind → Option (String × RecordKind)
  | .list => some ("selectors", .member)
  | .member => some ("steps", .step)
  | .step => some ("attributes", .test)
  | .test => none

end RecordKind

/-- One change of the wording of a record, at any place in it. -/
inductive Rewording : RecordKind → StoredValue → StoredValue → Prop where
  | form {kind value other fields} (hv : HasFields (RecordKind.names kind) value fields)
      (ho : HasFields (RecordKind.names kind) other fields) : Rewording kind value other
  | reorder {kind fields others} (h : List.Perm fields others) :
      Rewording kind (.record fields) (.record others)
  | add {kind front back name} (value : StoredValue) (hr : name ∉ kind.required)
      (ho : name ∉ kind.optional) :
      Rewording kind (.record (front ++ back)) (.record (front ++ (name, value) :: back))
  -- Whatever a field that nothing reads holds, records of the stored list included.
  | alter {kind front back name} (value other : StoredValue) (hr : name ∉ kind.required)
      (ho : name ∉ kind.optional) :
      Rewording kind (.record (front ++ (name, value) :: back))
        (.record (front ++ (name, other) :: back))
  | dropNull {kind front back name} (h : name ∈ kind.optional)
      (hn : ∀ field ∈ front ++ back, field.1 ≠ name) :
      Rewording kind (.record (front ++ (name, .null) :: back)) (.record (front ++ back))
  | giveNull {kind front back name} (h : name ∈ kind.optional)
      (hn : ∀ field ∈ front ++ back, field.1 ≠ name) :
      Rewording kind (.record (front ++ back)) (.record (front ++ (name, .null) :: back))
  | classes {front back names others} (h : ∀ name, name ∈ names ↔ name ∈ others) :
      Rewording .step (.record (front ++ ("classes", .list names) :: back))
        (.record (front ++ ("classes", .list others) :: back))
  | inside {kind inner name front back before item other after}
      (hk : RecordKind.inner? kind = some (name, inner)) (h : Rewording inner item other) :
      Rewording kind (.record (front ++ (name, .list (before ++ item :: after)) :: back))
        (.record (front ++ (name, .list (before ++ other :: after)) :: back))

/-- What can be read from one value is read from another too. -/
def KeepsReading {α : Type} (read : StoredValue → Restored α) (value other : StoredValue) : Prop :=
  ∀ a, read value = .ok a → read other = .ok a

namespace StoredValue

variable {α : Type} {fields others front back : List (String × StoredValue)} {name key : String}
  {value other : StoredValue} {read : StoredValue → Restored α}

@[simp] theorem valuesOf_append :
    valuesOf name (front ++ back) = valuesOf name front ++ valuesOf name back :=
  List.filterMap_append

@[simp] theorem valuesOf_cons_self :
    valuesOf name ((name, value) :: back) = value :: valuesOf name back :=
  List.filterMap_cons_some (if_pos rfl)

@[simp] theorem valuesOf_cons_of_ne (h : key ≠ name) :
    valuesOf name ((key, value) :: back) = valuesOf name back :=
  List.filterMap_cons_none (if_neg h)

theorem valuesOf_eq_nil (h : ∀ field ∈ fields, field.1 ≠ name) : valuesOf name fields = [] :=
  List.filterMap_eq_nil_iff.mpr fun field hf => if_neg (h field hf)

theorem eq_or_many_of_perm {front back : List α} (h : front.Perm back) :
    front = back ∨ 2 ≤ front.length ∧ 2 ≤ back.length := by
  match front, h with
  | [], h => exact .inl (List.nil_perm.mp h).symm
  | [a], h => exact .inl (List.singleton_perm.mp h)
  | a :: b :: rest, h =>
    have hf : 2 ≤ (a :: b :: rest).length := Nat.le_add_left 2 rest.length
    exact .inr ⟨hf, h.length_eq ▸ hf⟩

theorem required_of_many (h : 2 ≤ (valuesOf name fields).length) :
    required fields name read = .error .mismatch := by
  rw [required]
  split
  · rename_i hf
    simp [hf] at h
  · rfl

theorem optional_of_many (h : 2 ≤ (valuesOf name fields).length) :
    optional fields name = .error .mismatch := by
  rw [optional]
  split
  · rename_i hf
    simp [hf] at h
  · rename_i hf
    simp [hf] at h
  · rfl

theorem required_congr (h : valuesOf name fields = valuesOf name others) :
    required fields name read = required others name read := by
  rw [required, required, h]

theorem optional_congr (h : valuesOf name fields = valuesOf name others) :
    optional fields name = optional others name := by
  rw [optional, optional, h]

theorem required_of_perm (h : fields.Perm others) :
    required fields name read = required others name read := by
  rcases eq_or_many_of_perm (h.filterMap _) with he | ⟨hf, ho⟩
  · exact required_congr he
  · rw [required_of_many hf, required_of_many ho]

theorem optional_of_perm (h : fields.Perm others) :
    optional fields name = optional others name := by
  rcases eq_or_many_of_perm (h.filterMap _) with he | ⟨hf, ho⟩
  · exact optional_congr he
  · rw [optional_of_many hf, optional_of_many ho]

theorem optional_eq_none (h : valuesOf name fields = [] ∨ valuesOf name fields = [.null]) :
    optional fields name = .ok none := by
  rw [optional]
  rcases h with h | h <;> rw [h]
  rfl

theorem required_replace_self {a : α}
    (h : required (front ++ (name, value) :: back) name read = .ok a) :
    read value = .ok a ∧
      ∀ other, required (front ++ (name, other) :: back) name read = read other := by
  obtain ⟨field, hv, hf⟩ := required_eq_ok_iff.mp h
  rw [valuesOf_append, valuesOf_cons_self] at hv
  rcases List.append_eq_singleton_iff.mp hv with ⟨hfront, hrest⟩ | ⟨-, hnil⟩
  · obtain ⟨rfl, hback⟩ := List.cons.inj hrest
    refine ⟨hf, fun other => ?_⟩
    rw [required, valuesOf_append, valuesOf_cons_self, hfront, hback]
    rfl
  · exact absurd hnil (List.cons_ne_nil _ _)

theorem valuesOf_replace (h : key ≠ name) : valuesOf name (front ++ (key, other) :: back) =
    valuesOf name (front ++ (key, value) :: back) := by
  simp [h]

theorem toItems_toText_iff {names : List String} :
    toItems toText value = .ok names ↔ value = ofNames names := by
  refine ⟨fun h => ?_, fun h => h ▸ toItems_ofNames names⟩
  cases value with
  | list items =>
    have htexts := mapM_eq_ok_iff.mp h
    clear h
    rw [ofNames, list.injEq]
    induction htexts with
    | nil => rfl
    | @cons item name items names ht _ ih =>
      cases item with
      | text text =>
        cases ht
        rw [ih, List.map_cons]
      | _ => exact absurd ht nofun
  | _ => exact absurd h nofun

theorem exists_names {values others : List StoredValue} {names : List String}
    (h : ∀ value, value ∈ values ↔ value ∈ others)
    (hn : toItems toText (.list values) = .ok names) :
    ∃ more, toItems toText (.list others) = .ok more ∧ ∀ name, name ∈ more ↔ name ∈ names := by
  obtain rfl : values = names.map .text := by
    simpa [ofNames] using toItems_toText_iff.mp hn
  have htext : ∀ value ∈ others, ∃ name, StoredValue.text name = value := by
    intro value hv
    obtain ⟨name, -, he⟩ := List.mem_map.mp ((h value).mpr hv)
    exact ⟨name, he⟩
  obtain ⟨more, rfl⟩ : others ∈ Set.range (List.map StoredValue.text) := by
    rw [Set.range_list_map]
    exact htext
  refine ⟨more, toItems_ofNames more, fun name => ?_⟩
  have hinj : Function.Injective StoredValue.text := fun _ _ => StoredValue.text.inj
  rw [← List.mem_map_of_injective hinj, ← h, List.mem_map_of_injective hinj]

end StoredValue

namespace KeepsReading

variable {α : Type} {front back : List (String × StoredValue)} {name : String}
  {value other : StoredValue} {read : StoredValue → Restored α} {a : α}

theorem required (h : KeepsReading read value other)
    (ha : required (front ++ (name, value) :: back) name read = .ok a) :
    StoredValue.required (front ++ (name, other) :: back) name read = .ok a := by
  obtain ⟨hv, hother⟩ := required_replace_self ha
  exact (hother other).trans (h a hv)

theorem toItems {before after : List StoredValue} (h : KeepsReading read value other) :
    KeepsReading (toItems read) (.list (before ++ value :: after))
      (.list (before ++ other :: after)) := by
  intro items hi
  refine mapM_eq_ok_iff.mpr ?_
  have hitems := mapM_eq_ok_iff.mp hi
  clear hi
  induction before generalizing items with
  | nil =>
    cases hitems with
    | cons ha hrest => exact .cons (h _ ha) hrest
  | cons first before ih =>
    cases hitems with
    | cons hfirst hrest => exact .cons hfirst (ih _ hrest)

end KeepsReading

namespace RecordKind

def Keeps : RecordKind → StoredValue → StoredValue → Prop
  | .list => KeepsReading SelectorList.restore
  | .member => KeepsReading Selector.restore
  | .step => KeepsReading Step.restore
  | .test => KeepsReading AttributeSelector.restore

/-- Two records that give the same for every field of a kind. -/
structure Agrees (kind : RecordKind) (fields others : List (String × StoredValue)) : Prop where
  required : ∀ name ∈ kind.required, ∀ {α : Type} (read : StoredValue → Restored α),
    StoredValue.required others name read = StoredValue.required fields name read
  optional : ∀ name ∈ kind.optional, StoredValue.optional others name =
    StoredValue.optional fields name

variable {kind : RecordKind} {fields others : List (String × StoredValue)}

theorem Agrees.refl (kind : RecordKind) (fields : List (String × StoredValue)) :
    kind.Agrees fields fields :=
  ⟨fun _ _ _ _ => rfl, fun _ _ => rfl⟩

theorem Agrees.symm (h : kind.Agrees fields others) : kind.Agrees others fields :=
  ⟨fun name hn _ read => (h.required name hn read).symm, fun name hn => (h.optional name hn).symm⟩

theorem Agrees.keeps {value other : StoredValue} (h : kind.Agrees fields others)
    (hv : value.HasFields kind.names fields) (ho : other.HasFields kind.names others) :
    kind.Keeps value other := by
  obtain ⟨hr, hopt⟩ := h
  cases kind with
  | list =>
    simp only [RecordKind.required, List.forall_mem_singleton] at hr
    intro list hl
    rwa [SelectorList.restore_eq_ok_iff ho, hr, ← SelectorList.restore_eq_ok_iff hv]
  | member =>
    simp only [RecordKind.required, List.forall_mem_singleton] at hr
    intro member hm
    rwa [Selector.restore_eq_ok_iff ho, hr, ← Selector.restore_eq_ok_iff hv]
  | step =>
    simp only [RecordKind.required, RecordKind.optional, List.forall_mem_cons] at hr hopt
    intro step hs
    rw [Step.restore_eq_ok_iff hv] at hs
    simpa only [Step.restore_eq_ok_iff ho, hr, hopt] using hs
  | test =>
    simp only [RecordKind.required, RecordKind.optional, List.forall_mem_cons] at hr hopt
    intro test ht
    rw [AttributeSelector.restore_eq_ok_iff hv] at ht
    simpa only [AttributeSelector.restore_eq_ok_iff ho, hr, hopt] using ht

end RecordKind

namespace Rewording

variable {kind : RecordKind} {front back fields others : List (String × StoredValue)}
  {name : String} {value other : StoredValue}

theorem agrees_of_perm (h : fields.Perm others) : kind.Agrees fields others :=
  ⟨fun _ _ _ _ => required_of_perm h.symm, fun _ _ => optional_of_perm h.symm⟩

theorem agrees_of_values (hr : name ∉ kind.required) (ho : name ∉ kind.optional)
    (h : ∀ key, key ≠ name → valuesOf key others = valuesOf key fields) :
    kind.Agrees fields others :=
  ⟨fun key hk _ _ => required_congr (h key (ne_of_mem_of_not_mem hk hr)),
    fun key hk => optional_congr (h key (ne_of_mem_of_not_mem hk ho))⟩

theorem not_mem_required (h : name ∈ kind.optional) : name ∉ kind.required := by
  revert name
  cases kind <;> decide

theorem agrees_of_null (h : name ∈ kind.optional) (hn : ∀ field ∈ front ++ back, field.1 ≠ name) :
    kind.Agrees (front ++ back) (front ++ (name, .null) :: back) := by
  have hother : ∀ key, key ≠ name →
      valuesOf key (front ++ (name, .null) :: back) = valuesOf key (front ++ back) := by
    intro key hk
    simp [Ne.symm hk]
  constructor
  case required =>
    intro key hk _ _
    exact required_congr (hother key (ne_of_mem_of_not_mem hk (not_mem_required h)))
  case optional =>
    intro key _
    by_cases hk : key = name
    · subst hk
      have hnone := valuesOf_eq_nil hn
      rw [valuesOf_append, List.append_eq_nil_iff] at hnone
      have hnull : valuesOf key (front ++ (key, .null) :: back) = [.null] := by simp [hnone]
      rw [optional_eq_none (.inr hnull), optional_eq_none (.inl (valuesOf_eq_nil hn))]
    · exact optional_congr (hother key hk)

theorem restore_step {step : Step} (hs : Step.restore (.record fields) = .ok step)
    (h : ∀ key, "classes" ≠ key → "attributes" ≠ key → valuesOf key others = valuesOf key fields)
    (hclasses : ∀ names, required fields "classes" (toItems toText) = .ok names →
      ∃ more, required others "classes" (toItems toText) = .ok more ∧
        NameSet.ofList more = NameSet.ofList names)
    (htests : ∀ tests,
      required fields "attributes" (toItems AttributeSelector.restore) = .ok tests →
        required others "attributes" (toItems AttributeSelector.restore) = .ok tests) :
    Step.restore (.record others) = .ok step := by
  obtain ⟨he, hns, hid, ⟨names, hnames, hset⟩, ht, hpc, hpe, hc⟩ :=
    (Step.restore_eq_ok_iff (.record _)).mp hs
  obtain ⟨more, hmore, hsame⟩ := hclasses names hnames
  exact (Step.restore_eq_ok_iff (.record _)).mpr
    ⟨(optional_congr (h _ (by decide) (by decide))).trans he,
      (optional_congr (h _ (by decide) (by decide))).trans hns,
      (optional_congr (h _ (by decide) (by decide))).trans hid,
      ⟨more, hmore, hsame.trans hset⟩, htests _ ht,
      (required_congr (h _ (by decide) (by decide))).trans hpc,
      (required_congr (h _ (by decide) (by decide))).trans hpe,
      (required_congr (h _ (by decide) (by decide))).trans hc⟩

/-- A record in other words is read alike. -/
theorem keeps (h : Rewording kind value other) : kind.Keeps value other := by
  induction h with
  | form hv ho => exact (RecordKind.Agrees.refl _ _).keeps hv ho
  | reorder h => exact (agrees_of_perm h).keeps (.record _) (.record _)
  | add value hr ho =>
    refine RecordKind.Agrees.keeps (agrees_of_values hr ho fun key hk => ?_) (.record _) (.record _)
    simp [Ne.symm hk]
  | alter value other hr ho =>
    refine RecordKind.Agrees.keeps (agrees_of_values hr ho fun key hk => ?_) (.record _) (.record _)
    simp [Ne.symm hk]
  | dropNull h hn => exact (agrees_of_null h hn).symm.keeps (.record _) (.record _)
  | giveNull h hn => exact (agrees_of_null h hn).keeps (.record _) (.record _)
  | classes h =>
    intro step hs
    refine restore_step hs (fun _ hne _ => valuesOf_replace hne) (fun names hnames => ?_)
      fun tests ht => (required_congr (valuesOf_replace (by decide))).trans ht
    obtain ⟨hv, hother⟩ := required_replace_self hnames
    obtain ⟨more, hmore, hsame⟩ := exists_names h hv
    refine ⟨more, (hother _).trans hmore, NameSet.ext fun name => ?_⟩
    rw [NameSet.mem_ofList, NameSet.mem_ofList, hsame]
  | @inside kind inner name front back before item other after hk h ih =>
    cases kind with
    | list =>
      cases hk
      intro list hl
      exact (SelectorList.restore_eq_ok_iff (.record _)).mpr
        (ih.toItems.required ((SelectorList.restore_eq_ok_iff (.record _)).mp hl))
    | member =>
      cases hk
      intro member hm
      obtain ⟨hsteps, hnames⟩ := (Selector.restore_eq_ok_iff (.record _)).mp hm
      exact (Selector.restore_eq_ok_iff (.record _)).mpr ⟨ih.toItems.required hsteps, hnames⟩
    | step =>
      cases hk
      intro step hs
      refine restore_step hs (fun _ _ hne => valuesOf_replace hne) (fun names hnames => ?_)
        fun _ ht => ih.toItems.required ht
      exact ⟨names, (required_congr (valuesOf_replace (by decide))).trans hnames, rfl⟩
    | test => cases hk

end Rewording

namespace StoredValue

/-- What a stored list gives for its members. -/
def ListsMember (value item : StoredValue) : Prop :=
  ∃ fields items, value.HasFields SelectorList.fieldNames fields ∧
    valuesOf "selectors" fields = [.list items] ∧ item ∈ items

/-- A stored member that lists no step. -/
def Stepless (value : StoredValue) : Prop :=
  ∃ fields, value.HasFields Selector.fieldNames fields ∧ valuesOf "steps" fields = [.list []]

end StoredValue

theorem exists_of_forall₂ {α β : Type} {R : α → β → Prop} {front : List α} {back : List β}
    (h : List.Forall₂ R front back) : ∀ a ∈ front, ∃ b ∈ back, R a b := by
  induction h with
  | nil => exact nofun
  | @cons a b _ _ hr _ ih =>
    refine List.forall_mem_cons.mpr ⟨⟨b, List.mem_cons_self, hr⟩, fun other ho => ?_⟩
    obtain ⟨c, hc, hr⟩ := ih other ho
    exact ⟨c, List.mem_cons_of_mem b hc, hr⟩

theorem exists_of_forM_error {α ε : Type} {check : α → Except ε Unit} {list : List α} {e : ε}
    (h : list.forM check = .error e) : ∃ a ∈ list, check a = .error e := by
  obtain ⟨front, a, back, rfl, -, ha⟩ := forM_eq_error_iff.mp h
  exact ⟨a, List.mem_append_right front List.mem_cons_self, ha⟩

theorem Step.exists_use_of_supported_error {step : Step} {e : SelectorError}
    (h : step.supported = .error e) (hn : step.element ≠ some "") :
    ∃ use, e = .usesNamespace use := by
  rw [supported, if_neg hn] at h
  split at h
  · cases h
    exact ⟨_, rfl⟩
  · cases h
    exact ⟨_, rfl⟩
  · cases h

namespace SelectorList

variable {value item : StoredValue} {list : SelectorList}

theorem exists_items_of_restored {fields : List (String × StoredValue)}
    (hg : value.HasFields fieldNames fields) (h : restore value = .ok list) :
    ∃ items, valuesOf "selectors" fields = [.list items] ∧
      List.Forall₂ (fun item member => Selector.restore item = .ok member) items list.members := by
  obtain ⟨field, hf, hitems⟩ := required_eq_ok_iff.mp ((restore_eq_ok_iff hg).mp h)
  cases field with
  | list items => exact ⟨items, hf, mapM_eq_ok_iff.mp hitems⟩
  | _ => exact absurd hitems nofun

theorem exists_fields_of_restored (h : restore value = .ok list) :
    ∃ fields, value.HasFields fieldNames fields := by
  obtain ⟨_, hr, -⟩ := bind_eq_ok_iff.mp h
  exact exists_fields_of_toRecord hr

theorem not_stepless_of_restored (h : restore value = .ok list) (hi : value.ListsMember item) :
    ¬ item.Stepless := by
  rintro ⟨fields, hfields, hv⟩
  obtain ⟨record, items, hrecord, hf, hm⟩ := hi
  obtain ⟨_, hitems, hall⟩ := exists_items_of_restored hrecord h
  cases hf.symm.trans hitems
  obtain ⟨member, -, hr⟩ := exists_of_forall₂ hall _ hm
  obtain ⟨hsteps, -⟩ := (Selector.restore_eq_ok_iff hfields).mp hr
  rw [required, hv] at hsteps
  exact member.nonempty (Except.ok.inj hsteps).symm

theorem element_ne_of_restored (h : restore value = .ok list) :
    ∀ member ∈ list.members, ∀ step ∈ member.steps, step.element ≠ some "" := by
  intro member hm
  obtain ⟨fields, hg⟩ := exists_fields_of_restored h
  obtain ⟨items, -, hall⟩ := exists_items_of_restored hg h
  obtain ⟨item, -, hr⟩ := exists_of_forall₂ hall.flip member hm
  obtain ⟨steps, -, hs⟩ := bind_eq_ok_iff.mp hr
  obtain ⟨rfl, hnames⟩ := Selector.ofRestored_eq_ok_iff.mp hs
  exact hnames

/-- Whatever list is restored, each member has steps, none of which asks for an element without a
name, so that a search for it can only be refused for a namespace; a stored member without steps is
not restored. Every wording of the stored list is restored to the same list. -/
theorem restored_is_sound (h : restore value = .ok list) :
    (∀ member ∈ list.members,
      member.steps ≠ [] ∧ ∀ step ∈ member.steps, step.element ≠ some "") ∧
    (∀ item, value.ListsMember item → ¬ item.Stepless) ∧
    (∀ (session : Session) (e : SelectorError), session.findList list = .error e →
      ∃ use, e = .usesNamespace use) ∧
    ∀ other, Relation.ReflTransGen (Rewording .list) value other → restore other = .ok list := by
  have hnames := element_ne_of_restored h
  refine ⟨fun member hm => ⟨member.nonempty, hnames member hm⟩,
    fun item hi => not_stepless_of_restored h hi, fun session e he => ?_, fun other hw => ?_⟩
  · rw [Session.findList_eq] at he
    split at he
    · rename_i hs
      cases he
      obtain ⟨member, hm, hs⟩ := exists_of_forM_error hs
      obtain ⟨step, hstep, hs⟩ := exists_of_forM_error hs
      exact Step.exists_use_of_supported_error hs (hnames member hm step hstep)
    · cases he
  · induction hw with
    | refl => exact h
    | tail _ hstep ih => exact hstep.keeps list ih

/-- A stored list with a number of its version, a null left out, its classes in another order, one
of them twice, and its member written without names. -/
theorem restored_of_rewording :
    let step (fields : List (String × StoredValue)) (classes : List String) : StoredValue :=
      .record (("element", .text "a") :: fields ++ [("classes", .ofNames classes),
        ("attributes", .list []), ("pseudo_classes", .list []), ("pseudo_elements", .list []),
        ("combinator", .record [("None", .null)])])
    let member (step : StoredValue) : StoredValue := .record [("steps", .list [step])]
    let value : StoredValue := .record [("selectors",
      .list [member (step [("namespace", .null), ("id", .null)] ["y", "x"])])]
    let other : StoredValue := .record [("version", .number 1 0), ("selectors",
      .list [.list [.list [step [("id", .null)] ["x", "y", "x"]]]])]
    let list : SelectorList :=
      ⟨[⟨[{ element := some "a", classes := .ofList ["x", "y"] }], nofun⟩]⟩
    restore value = .ok list ∧ Relation.ReflTransGen (Rewording .list) value other ∧
      restore other = .ok list := by
  intro step member value other list
  have h : restore value = .ok list := by decide
  have hmember : ∀ front back, Rewording .member front back →
      Rewording .list (.record [("selectors", .list [front])])
        (.record [("selectors", .list [back])]) := fun front back hr =>
    @Rewording.inside .list .member "selectors" [] [] [] front back [] rfl hr
  have hstep : ∀ front back, Rewording .step front back →
      Rewording .member (member front) (member back) := fun front back hr =>
    @Rewording.inside .member .step "steps" [] [] [] front back [] rfl hr
  have hnull : Rewording .step (step [("namespace", .null), ("id", .null)] ["y", "x"])
      (step [("id", .null)] ["y", "x"]) :=
    @Rewording.dropNull .step [("element", .text "a")] _ "namespace" (by decide) (by decide)
  have hclasses : Rewording .step (step [("id", .null)] ["y", "x"])
      (step [("id", .null)] ["x", "y", "x"]) :=
    @Rewording.classes [("element", .text "a"), ("id", .null)] _ _ _ (by simp [or_comm])
  have hlisted : ∀ steps, Rewording .member (.record [("steps", steps)]) (.list [steps]) :=
    fun steps => .form (.record _) (@HasFields.list Selector.fieldNames [("steps", steps)] rfl)
  have hversion : Rewording .list (.record [("selectors",
      .list [.list [.list [step [("id", .null)] ["x", "y", "x"]]]])]) other :=
    @Rewording.add .list [] _ "version" _ (by decide) (by decide)
  have hw : Relation.ReflTransGen (Rewording .list) value other :=
    (((Relation.ReflTransGen.single (hmember _ _ (hstep _ _ hnull))).tail
      (hmember _ _ (hstep _ _ hclasses))).tail (hmember _ _ (hlisted _))).tail hversion
  exact ⟨h, hw, (restored_is_sound h).2.2.2 other hw⟩

/-- A field that nothing reads may not be added to a record that stands for a combinator. -/
theorem refused_of_named_record :
    let value (combinator : List (String × StoredValue)) : StoredValue :=
      .record [("selectors", .list [.record [("steps", .list [.record [("element", .text "a"),
        ("namespace", .null), ("id", .null), ("classes", .list []), ("attributes", .list []),
        ("pseudo_classes", .list []), ("pseudo_elements", .list []),
        ("combinator", .record combinator)]])]])]
    restore (value [("None", .null)]) = .ok ⟨[⟨[{ element := some "a" }], nofun⟩]⟩ ∧
      restore (value [("None", .null), ("x", .number 1 0)]) = .error .mismatch := by
  decide

end SelectorList

end TreeQuery
