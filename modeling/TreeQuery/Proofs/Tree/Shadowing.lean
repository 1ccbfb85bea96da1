import Mathlib.Data.List.Induction
import TreeQuery.Proofs.Tree.Attributes

/-! Attributes of one local name in several namespaces.
An attribute is written by its whole name and read by the local one alone. What is read therefore
belongs to the whole name that was written first, and shows what that name was given last; a write
to another whole name stands behind it and is not seen. -/
namespace TreeQuery

/-- The first of the writes to a local name, in whatever namespace. -/
def firstWrite? (writes : List Attribute) (localName : NameId) : Option Attribute :=
  writes.find? fun write => write.name.localName = localName

/-- The last of the writes to a whole name. -/
def lastWrite? (writes : List Attribute) (name : QualifiedName) : Option Attribute :=
  (writes.filter fun write => write.name = name).getLast?

def Element.written (tag : QualifiedName) (writes : List Attribute) : Element :=
  writes.foldl (fun element write => element.set write.name write.value) { name := tag }

section Writes

variable {writes : List Attribute} {write : Attribute} {name : QualifiedName}
  {localName : NameId}

theorem firstWrite?_concat : firstWrite? (writes ++ [write]) localName =
    (firstWrite? writes localName).or
      (if write.name.localName = localName then some write else none) := by
  rw [firstWrite?, firstWrite?, List.find?_append]
  by_cases h : write.name.localName = localName <;> simp [h]

theorem lastWrite?_concat : lastWrite? (writes ++ [write]) name =
    if write.name = name then some write else lastWrite? writes name := by
  rw [lastWrite?, lastWrite?, List.filter_append]
  by_cases h : write.name = name <;> simp [h]

theorem lastWrite?_of_mem (h : write ∈ writes) :
    ∃ last, lastWrite? writes write.name = some last ∧ last.name = write.name := by
  have hm : write ∈ writes.filter fun other => other.name = write.name := by simp [h]
  have hl := List.getLast?_eq_getLast_of_ne_nil (List.ne_nil_of_mem hm)
  have hlast := List.mem_filter.mp (List.mem_of_getLast? hl)
  exact ⟨_, hl, of_decide_eq_true hlast.2⟩

end Writes

namespace Element

variable {element : Element} {name tag : QualifiedName} {value : String} {writes : List Attribute}
  {write : Attribute}

theorem written_concat :
    written tag (writes ++ [write]) = (written tag writes).set write.name write.value := by
  rw [written, List.foldl_concat]
  rfl

theorem find?_written (tag : QualifiedName) (writes : List Attribute) (localName : NameId) :
    (written tag writes).attributes.find? (fun item => item.name.localName = localName) =
      (firstWrite? writes localName).bind fun first => lastWrite? writes first.name := by
  induction writes using List.reverseRec with
  | nil => rfl
  | append_singleton writes write ih =>
    rw [written_concat, set]
    rw [find?_setAttribute (fun name => name.localName = localName), ih, firstWrite?_concat]
    cases hf : firstWrite? writes localName with
    | none =>
      by_cases hw : write.name.localName = localName <;> simp [hw, lastWrite?_concat]
    | some first =>
      obtain ⟨last, hl, hn⟩ := lastWrite?_of_mem (List.mem_of_find?_eq_some hf)
      by_cases hw : write.name = first.name
      · have hwrite : (⟨first.name, write.value⟩ : Attribute) = write := by rw [← hw]
        simp [hl, hn, hw, hwrite, lastWrite?_concat]
      · simp [hl, hn, hw, Ne.symm hw, lastWrite?_concat]

theorem get?_set_iff : (element.set name value).get? name.localName = some value ↔
    ∀ first, (element.attributes.find? fun item => item.name.localName = name.localName) =
      some first → first.name = name ∨ first.value = value := by
  rw [get?, set, find?_setAttribute (fun other => other.localName = name.localName)]
  cases element.attributes.find? fun item => item.name.localName = name.localName with
  | none => simp
  | some first =>
    by_cases h : first.name = name <;> simp [h]

end Element

namespace Tree

variable {tree after : Tree} {id : NodeId} {key value : String}

theorem isElement_of_setAttribute (h : tree.setAttribute id key value = (.ok (), after)) :
    tree.isElement id = true := by
  rw [isElement]
  cases he : tree.element? id with
  | some element => rfl
  | none =>
    obtain ⟨e, herror⟩ := exists_setAttribute_error he key value
    cases herror.symm.trans h

/-- In whatever tree, an attribute that was set reads back unless its element has one of the same
local name in a namespace before it. -/
theorem attribute?_setAttribute_iff (h : tree.setAttribute id key value = (.ok (), after)) :
    after.attribute? id key = some value ↔
      ∀ element first, tree.element? id = some element →
        (element.attributes.find? fun item =>
          item.name.localName = (tree.names.intern key).1) = some first →
        first.name.ns = none ∨ first.value = value := by
  obtain ⟨element, he⟩ := Option.isSome_iff_exists.mp (isElement_of_setAttribute h)
  obtain ⟨other, hset, hnames, -, helement⟩ := exists_setAttribute he key value
  cases hset.symm.trans h
  have hread : after.attribute? id key =
      (element.set { localName := (tree.names.intern key).1 } value).get?
        (tree.names.intern key).1 := by
    rw [attribute?, hnames, tree.names.lookup_interned key, helement, if_pos rfl]
    rfl
  rw [hread]
  refine Element.get?_set_iff.trans ⟨fun hseen found first hf hfirst => ?_, fun hseen first hf => ?_⟩
  · cases he.symm.trans hf
    refine (hseen first hfirst).imp_left fun hn => ?_
    rw [hn]
  · refine (hseen element first he hf).imp_left fun hn => ?_
    have hlocal : first.name.localName = (tree.names.intern key).1 := by
      simpa using List.find?_some hf
    exact (QualifiedName.eq_plain_iff hn).mpr hlocal

end Tree

/-- When a value that was just written reads back: at an element with a history of writes, at an
element of whatever tree, and always in a tree that was built step by step. -/
theorem read_back_iff (tag : QualifiedName) (writes : List Attribute) (name : QualifiedName)
    (tree : Tree) (id : NodeId) (key value : String) :
    (((Element.written tag writes).set name value).get? name.localName = some value ↔
      ∀ first, firstWrite? writes name.localName = some first →
        first.name = name ∨ (lastWrite? writes first.name).map Attribute.value = some value) ∧
    ∀ after, tree.setAttribute id key value = (.ok (), after) →
      (after.attribute? id key = some value ↔
        ∀ element first, tree.element? id = some element →
          (element.attributes.find? fun item =>
            item.name.localName = (tree.names.intern key).1) = some first →
          first.name.ns = none ∨ first.value = value) ∧
      (tree.Reachable → after.attribute? id key = some value) := by
  refine ⟨?_, fun after h => ⟨Tree.attribute?_setAttribute_iff h, fun hr => ?_⟩⟩
  · rw [Element.get?_set_iff, Element.find?_written]
    cases hf : firstWrite? writes name.localName with
    | none => simp
    | some first =>
      obtain ⟨last, hl, hn⟩ := lastWrite?_of_mem (List.mem_of_find?_eq_some hf)
      simp [hl, hn]
  · obtain ⟨other, hset, -, hattribute⟩ :=
      hr.attributeSet (Tree.isElement_of_setAttribute h) key value
    cases hset.symm.trans h
    exact hattribute.value

/-- An attribute without a namespace that was set behind one of the same local name in a namespace:
the value of the older one is read. -/
theorem read_back_of_shadowed :
    let element := Element.written { localName := ⟨7⟩ } [⟨{ ns := some ⟨5⟩, localName := ⟨2⟩ }, "a"⟩]
    let after := element.set { localName := ⟨2⟩ } "b"
    after.get? ⟨2⟩ = some "a" ∧ after.get? ⟨2⟩ ≠ some "b" := by
  refine ⟨rfl, fun h => ?_⟩
  have hseen := (read_back_iff _ _ _ .empty .root "" _).1.mp h _ rfl
  rcases hseen with hn | hv
  · cases hn
  · exact absurd hv (by decide)

end TreeQuery
