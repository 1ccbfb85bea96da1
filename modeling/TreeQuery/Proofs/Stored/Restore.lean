import Mathlib.Data.List.Forall2
import TreeQuery.Proofs.Selector.Assembly
import TreeQuery.Stored.Selectors

/-! Storing selectors and restoring them.
A record is restored from what it gives for each field, and a list item by item. What is stored is
restored as it was, but for steps that ask for an element without a name: these are refused. -/
namespace TreeQuery

theorem bind_eq_ok_iff {α β ε : Type} {first : Except ε α} {next : α → Except ε β} {b : β} :
    first >>= next = .ok b ↔ ∃ a, first = .ok a ∧ next a = .ok b := by
  cases first with
  | error e => exact ⟨nofun, nofun⟩
  | ok a =>
    refine ⟨fun h => ⟨a, rfl, h⟩, ?_⟩
    rintro ⟨_, ⟨⟩, h⟩
    exact h

theorem mapM_eq_ok_iff {α β ε : Type} {read : α → Except ε β} {items : List α}
    {results : List β} : items.mapM read = .ok results ↔
      List.Forall₂ (fun item result => read item = .ok result) items results := by
  induction items generalizing results with
  | nil =>
    rw [List.mapM_nil, List.forall₂_nil_left_iff]
    constructor
    · rintro ⟨⟩
      rfl
    · rintro rfl
      rfl
  | cons item items ih =>
    rw [List.mapM_cons, bind_eq_ok_iff, List.forall₂_cons_left_iff]
    refine exists_congr fun result => ?_
    rw [bind_eq_ok_iff]
    constructor
    · rintro ⟨hr, rest, hrest, ⟨⟩⟩
      exact ⟨rest, hr, ih.mp hrest, rfl⟩
    · rintro ⟨rest, hr, hrest, rfl⟩
      exact ⟨hr, rest, ih.mpr hrest, rfl⟩

theorem mapM_map_eq {α β ε : Type} {write : α → β} {read : β → Except ε α} {fails : α → Prop}
    [DecidablePred fails] {e : ε}
    (h : ∀ a, read (write a) = if fails a then .error e else .ok a) (items : List α) :
    (items.map write).mapM read = if ∃ a ∈ items, fails a then .error e else .ok items := by
  induction items with
  | nil => exact (if_neg nofun).symm
  | cons a items ih =>
    rw [List.map_cons, List.mapM_cons, h, ih]
    by_cases ha : fails a
    · rw [if_pos ha, if_pos ((List.exists_mem_cons_iff ..).mpr (.inl ha))]
      rfl
    · have hrest : (∃ b ∈ a :: items, fails b) ↔ ∃ b ∈ items, fails b :=
        (List.exists_mem_cons_iff ..).trans (or_iff_right ha)
      simp only [if_neg ha, hrest]
      split <;> rfl

namespace StoredValue

/-- The ways to give the fields `names`: each with its name, or what they hold in their order. -/
inductive HasFields (names : List String) : StoredValue → List (String × StoredValue) → Prop where
  | record (fields) : HasFields names (.record fields) fields
  | list {fields} (h : fields.map Prod.fst = names) :
      HasFields names (.list (fields.map Prod.snd)) fields

variable {α : Type} {fields : List (String × StoredValue)} {name : String}

/-- Whichever way the fields are given, they are read alike. -/
theorem HasFields.toRecord_eq {names : List String} {value : StoredValue}
    (h : HasFields names value fields) (read : List (String × StoredValue) → Restored α) :
    value.toRecord names read = read fields := by
  cases h with
  | record => rfl
  | list hn =>
    have hlength : (fields.map Prod.snd).length = names.length := by
      rw [← hn, List.length_map, List.length_map]
    rw [toRecord, ← List.zip_of_prod hn rfl]
    cases read fields with
    | error e => rfl
    | ok a => exact if_pos hlength

theorem exists_fields_of_toRecord {names : List String} {value : StoredValue}
    {read : List (String × StoredValue) → Restored α} {a : α}
    (h : value.toRecord names read = .ok a) : ∃ fields, HasFields names value fields := by
  cases value with
  | record fields => exact ⟨fields, .record fields⟩
  | list items =>
    obtain ⟨_, -, hlength⟩ := bind_eq_ok_iff.mp h
    split at hlength
    · rename_i hl
      have hg := HasFields.list (List.map_fst_zip (Nat.le_of_eq hl.symm))
      rw [List.map_snd_zip (Nat.le_of_eq hl)] at hg
      exact ⟨_, hg⟩
    · cases hlength
  | _ => cases h

theorem required_eq_ok_iff {read : StoredValue → Restored α} {a : α} :
    required fields name read = .ok a ↔
      ∃ field, valuesOf name fields = [field] ∧ read field = .ok a := by
  rw [required]
  split
  · rename_i field hf
    simp [hf]
  · rename_i hf
    refine ⟨nofun, ?_⟩
    rintro ⟨field, h, -⟩
    exact absurd h (hf field)

theorem toOption_ofOption (value : Option String) : (ofOption value).toOption = .ok value := by
  cases value <;> rfl

theorem toItems_map_eq {write : α → StoredValue} {read : StoredValue → Restored α}
    {fails : α → Prop} [DecidablePred fails] {e : RestoreError}
    (h : ∀ a, read (write a) = if fails a then .error e else .ok a) (items : List α) :
    toItems read (.list (items.map write)) =
      if ∃ a ∈ items, fails a then .error e else .ok items :=
  mapM_map_eq h items

theorem toItems_map {write : α → StoredValue} {read : StoredValue → Restored α}
    (h : ∀ a, read (write a) = .ok a) (items : List α) :
    toItems read (.list (items.map write)) = .ok items := by
  refine mapM_eq_ok_iff.mpr ?_
  rw [List.forall₂_map_left_iff]
  exact List.forall₂_same.mpr fun a _ => h a

theorem toItems_ofNames (names : List String) : toItems toText (ofNames names) = .ok names := by
  refine toItems_map ?_ names
  exact fun _ => rfl

end StoredValue

open StoredValue

theorem AttributeOperator.restore_storedName (operator : AttributeOperator) :
    restore (.text operator.storedName) = .ok operator := by
  cases operator <;> rfl

theorem Combinator.restore_storedName (combinator : Combinator) :
    restore (.text combinator.storedName) = .ok combinator := by
  cases combinator <;> rfl

section Fields

variable {value : StoredValue} {fields : List (String × StoredValue)}

theorem AttributeSelector.restore_eq_ok_iff (hg : value.HasFields fieldNames fields)
    {test : AttributeSelector} : restore value = .ok test ↔
      required fields "name" toText = .ok test.name ∧ optional fields "namespace" = .ok test.ns ∧
      required fields "operator" AttributeOperator.restore = .ok test.operator ∧
      optional fields "value" = .ok test.value := by
  rw [restore, hg.toRecord_eq]
  simp only [ofFields, bind_eq_ok_iff]
  constructor
  · rintro ⟨name, hname, ns, hns, operator, hoperator, value, hvalue, ⟨⟩⟩
    exact ⟨hname, hns, hoperator, hvalue⟩
  · rintro ⟨hname, hns, hoperator, hvalue⟩
    exact ⟨_, hname, _, hns, _, hoperator, _, hvalue, rfl⟩

theorem Step.restore_eq_ok_iff (hg : value.HasFields fieldNames fields) {step : Step} :
    restore value = .ok step ↔ optional fields "element" = .ok step.element ∧
      optional fields "namespace" = .ok step.ns ∧ optional fields "id" = .ok step.id ∧
      (∃ names, required fields "classes" (toItems toText) = .ok names ∧
        NameSet.ofList names = step.classes) ∧
      required fields "attributes" (toItems AttributeSelector.restore) = .ok step.tests ∧
      required fields "pseudo_classes" (toItems toText) = .ok step.pseudoClasses ∧
      required fields "pseudo_elements" (toItems toText) = .ok step.pseudoElements ∧
      required fields "combinator" Combinator.restore = .ok step.combinator := by
  rw [restore, hg.toRecord_eq]
  simp only [ofFields, bind_eq_ok_iff]
  constructor
  · rintro ⟨element, helement, ns, hns, id, hid, names, hnames, tests, htests, pc, hpc, pe,
      hpe, combinator, hcombinator, ⟨⟩⟩
    exact ⟨helement, hns, hid, ⟨names, hnames, rfl⟩, htests, hpc, hpe, hcombinator⟩
  · obtain ⟨element, ns, id, classes, tests, pc, pe, combinator⟩ := step
    rintro ⟨helement, hns, hid, ⟨names, hnames, rfl⟩, htests, hpc, hpe, hcombinator⟩
    exact ⟨_, helement, _, hns, _, hid, _, hnames, _, htests, _, hpc, _, hpe, _,
      hcombinator, rfl⟩

theorem Selector.ofRestored_eq_ok_iff {steps : List Step} {member : Selector} :
    ofRestored steps = .ok member ↔
      steps = member.steps ∧ ∀ step ∈ steps, step.element ≠ some "" := by
  rw [ofRestored]
  split
  · rename_i hany
    obtain ⟨step, hs, he⟩ := List.any_eq_true.mp hany
    constructor
    · rintro ⟨⟩
    · exact fun h => absurd (beq_iff_eq.mp he) (h.2 step hs)
  · rename_i hany
    have hnames : ∀ step ∈ steps, step.element ≠ some "" := fun step hs he =>
      hany (List.any_eq_true.mpr ⟨step, hs, beq_iff_eq.mpr he⟩)
    rw [and_iff_left hnames, ofSteps?]
    by_cases hnil : steps = []
    · rw [dif_pos hnil]
      constructor
      · rintro ⟨⟩
      · exact fun h => absurd (h.symm.trans hnil) member.nonempty
    · rw [dif_neg hnil]
      constructor
      · rintro ⟨⟩
        rfl
      · rintro rfl
        rfl

theorem Selector.restore_eq (hg : value.HasFields fieldNames fields) :
    restore value = required fields "steps" (toItems Step.restore) >>= ofRestored := by
  rw [restore, hg.toRecord_eq]

theorem Selector.restore_eq_ok_iff (hg : value.HasFields fieldNames fields) {member : Selector} :
    restore value = .ok member ↔
      required fields "steps" (toItems Step.restore) = .ok member.steps ∧
        ∀ step ∈ member.steps, step.element ≠ some "" := by
  rw [restore_eq hg, bind_eq_ok_iff]
  simp only [ofRestored_eq_ok_iff]
  constructor
  · rintro ⟨_, hsteps, rfl, hnames⟩
    exact ⟨hsteps, hnames⟩
  · rintro ⟨hsteps, hnames⟩
    exact ⟨_, hsteps, rfl, hnames⟩

theorem SelectorList.restore_eq (hg : value.HasFields fieldNames fields) : restore value =
    required fields "selectors" (toItems Selector.restore) >>= fun members => .ok ⟨members⟩ := by
  rw [restore, hg.toRecord_eq]
  rfl

theorem SelectorList.restore_eq_ok_iff (hg : value.HasFields fieldNames fields)
    {list : SelectorList} : restore value = .ok list ↔
      required fields "selectors" (toItems Selector.restore) = .ok list.members := by
  rw [restore_eq hg, bind_eq_ok_iff]
  constructor
  · rintro ⟨members, hmembers, ⟨⟩⟩
    exact hmembers
  · exact fun hmembers => ⟨_, hmembers, rfl⟩

end Fields

theorem AttributeSelector.restore_store (test : AttributeSelector) :
    restore test.store = .ok test :=
  (restore_eq_ok_iff (.record _)).mpr
    ⟨rfl, toOption_ofOption test.ns, test.operator.restore_storedName, toOption_ofOption test.value⟩

theorem Step.restore_store (step : Step) : restore step.store = .ok step :=
  (restore_eq_ok_iff (.record _)).mpr
    ⟨toOption_ofOption step.element, toOption_ofOption step.ns, toOption_ofOption step.id,
      ⟨_, toItems_ofNames step.classes.names, step.classes.ofList_names⟩,
      toItems_map AttributeSelector.restore_store step.tests, toItems_ofNames step.pseudoClasses,
      toItems_ofNames step.pseudoElements, step.combinator.restore_storedName⟩

/-- A member that is stored is refused for an element without a name and for nothing else. -/
theorem Selector.restore_store (member : Selector) : restore member.store =
    if ∃ step ∈ member.steps, step.element = some "" then .error .emptyElementName
    else .ok member := by
  have hsteps : required [("steps", .list (member.steps.map Step.store))] "steps"
      (toItems Step.restore) = .ok member.steps := toItems_map Step.restore_store member.steps
  split
  · rename_i hempty
    obtain ⟨step, hs, he⟩ := hempty
    have hany : member.steps.any (fun step => step.element == some "") = true :=
      List.any_eq_true.mpr ⟨step, hs, beq_iff_eq.mpr he⟩
    rw [store, restore_eq (.record _), hsteps]
    exact if_pos hany
  · rename_i hnone
    exact (restore_eq_ok_iff (.record _)).mpr ⟨hsteps, fun step hs he => hnone ⟨step, hs, he⟩⟩

/-- What is stored is restored as it was, whatever it holds, unless some step asks for an element
without a name. Then it is refused, and the message says so. -/
theorem SelectorList.restore_of_stored (list : SelectorList) :
    (restore list.store).mapError RestoreError.message =
      if ∃ member ∈ list.members, ∃ step ∈ member.steps, step.element = some "" then
        .error "Invalid selector structure: empty element name"
      else .ok list := by
  have hmembers : required [("selectors", .list (list.members.map Selector.store))] "selectors"
      (toItems Selector.restore) =
        if ∃ member ∈ list.members, ∃ step ∈ member.steps, step.element = some "" then
          .error .emptyElementName
        else .ok list.members := toItems_map_eq Selector.restore_store list.members
  rw [store, restore_eq (.record _), hmembers]
  split <;> rfl

end TreeQuery
