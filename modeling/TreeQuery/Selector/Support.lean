import TreeQuery.Selector.Basic
import TreeQuery.Selector.Fault

/-! Which selectors can be evaluated: those without namespaces and without empty element names. -/
namespace TreeQuery

/-- Refuses a step for its empty name, its namespace, or the first namespace of its tests. -/
def Step.supported (step : Step) : Except SelectorError Unit :=
  if step.element = some "" then .error .emptyElementName
  else match step.ns, step.tests.find? fun test => test.ns.isSome with
    | some ns, _ => .error (.usesNamespace (.onElement ns))
    | none, some test => .error (.usesNamespace (.onAttribute test.name))
    | none, none => .ok ()

def Selector.supported (selector : Selector) : Except SelectorError Unit :=
  selector.steps.forM Step.supported

def SelectorList.supported (list : SelectorList) : Except SelectorError Unit :=
  list.members.forM Selector.supported

theorem forM_eq_ok_iff {α ε : Type} {check : α → Except ε Unit} {list : List α} :
    list.forM check = .ok () ↔ ∀ a ∈ list, check a = .ok () := by
  induction list with
  | nil => simp [pure, Except.pure]
  | cons a rest ih =>
    rw [List.forM, List.forall_mem_cons]
    cases check a with
    | error e => simp [bind, Except.bind]
    | ok u => simpa [bind, Except.bind] using ih

theorem forM_eq_error_iff {α ε : Type} {check : α → Except ε Unit} {list : List α} {e : ε} :
    list.forM check = .error e ↔
      ∃ front a back, list = front ++ a :: back ∧ (∀ b ∈ front, check b = .ok ()) ∧
        check a = .error e := by
  induction list with
  | nil => simp [List.forM, pure, Except.pure]
  | cons first rest ih =>
    rw [List.forM]
    cases hf : check first with
    | error other =>
      constructor
      · intro h
        cases h
        exact ⟨[], first, rest, rfl, fun _ hb => absurd hb List.not_mem_nil, hf⟩
      · rintro ⟨front, a, back, hl, hfront, ha⟩
        cases front with
        | nil =>
          cases hl
          exact hf.symm.trans ha
        | cons b front =>
          cases hl
          exact absurd (hf.symm.trans (hfront first List.mem_cons_self)) nofun
    | ok =>
      refine ih.trans ⟨?_, ?_⟩
      · rintro ⟨front, a, back, rfl, hfront, ha⟩
        exact ⟨first :: front, a, back, rfl, List.forall_mem_cons.mpr ⟨hf, hfront⟩, ha⟩
      · rintro ⟨front, a, back, hl, hfront, ha⟩
        cases front with
        | nil =>
          cases hl
          exact absurd (hf.symm.trans ha) nofun
        | cons b front =>
          cases hl
          exact ⟨front, a, back, rfl, (List.forall_mem_cons.mp hfront).2, ha⟩

end TreeQuery
