import TreeQuery.Proofs.Repetition
import TreeQuery.Proofs.Tree.Preorder

/-! Document order.
A node comes before all below it, and a whole subtree before that of a later sibling. Subtrees are
intervals of this order: going through several of them in order, each node where it is met first,
never goes back. -/
namespace TreeQuery

namespace Tree

variable {tree : Tree} {id top p a b c d left right : NodeId}

/-- A node is another one or lies below it. -/
def Inside (tree : Tree) (id top : NodeId) : Prop :=
  Relation.ReflTransGen (fun child parent => tree.parent? child = some parent) id top

/-- Document order: a node comes before what lies below it, and what lies in the subtree of a node
before what lies in that of a later sibling. -/
def Precedes (tree : Tree) (left right : NodeId) : Prop :=
  tree.Below right left ∨ ∃ a b, tree.Earlier a b ∧ tree.Inside left a ∧ tree.Inside right b

theorem Inside.self (tree : Tree) (id : NodeId) : tree.Inside id id := Relation.ReflTransGen.refl

theorem Below.inside (h : tree.Below id top) : tree.Inside id top :=
  Relation.TransGen.to_reflTransGen h

theorem Below.trans_inside (h : tree.Below id a) (k : tree.Inside a top) : tree.Below id top :=
  Relation.TransGen.trans_left h k

theorem Inside.total (h : tree.Inside id a) (k : tree.Inside id b) :
    tree.Inside a b ∨ tree.Inside b a :=
  Relation.ReflTransGen.total_of_right_unique
    (fun _ _ _ h k => Option.some.inj (h.symm.trans k)) h k

theorem Inside.parent (h : tree.Inside a top) (hne : a ≠ top) (hp : tree.parent? a = some p) :
    tree.Inside p top := by
  rcases Relation.ReflTransGen.cases_head h with rfl | ⟨q, hq, h⟩
  · exact absurd rfl hne
  · cases hp.symm.trans hq
    exact h

namespace Forest

variable (f : Forest tree tree.children)

include f

theorem eq_of_inside_both (ha : tree.parent? a = some p) (hb : tree.parent? b = some p)
    (hia : tree.Inside id a) (hib : tree.Inside id b) : a = b := by
  by_contra hne
  rcases hia.total hib with h | h
  · exact f.not_below_self b ((Below.of_parent? hb).trans_inside (h.parent hne ha))
  · exact f.not_below_self a ((Below.of_parent? ha).trans_inside (h.parent (Ne.symm hne) hb))

theorem not_inside_of_earlier (h : tree.Earlier a b) (ha : tree.Inside id a) :
    ¬ tree.Inside id b := by
  intro hb
  obtain ⟨p, hpa, hpb⟩ := f.exists_parent?_of_earlier h
  cases f.eq_of_inside_both hpa hpb ha hb
  exact f.not_earlier h h

/-- What lies in the subtrees of two siblings lies the same way round in those of any other two. -/
theorem not_crossed (h : tree.Earlier a b) (k : tree.Earlier c d) (hla : tree.Inside left a)
    (hrb : tree.Inside right b) (hrc : tree.Inside right c) : ¬ tree.Inside left d := by
  intro hld
  obtain ⟨p, hpa, hpb⟩ := f.exists_parent?_of_earlier h
  obtain ⟨q, hqc, hqd⟩ := f.exists_parent?_of_earlier k
  by_cases had : a = d
  · subst had
    cases hpa.symm.trans hqd
    cases f.eq_of_inside_both hpb hqc hrb hrc
    exact f.not_earlier h k
  · -- of two different subtrees around `left`, the larger one holds all four siblings
    rcases hla.total hld with hin | hin
    · exact f.not_inside_of_earlier k hrc (hrb.trans (.head hpb (hin.parent had hpa)))
    · exact f.not_inside_of_earlier h (hrc.trans (.head hqc (hin.parent (Ne.symm had) hqd))) hrb

theorem not_precedes (h : tree.Precedes left right) : ¬ tree.Precedes right left := by
  intro k
  rcases h with h | ⟨a, b, hab, hla, hrb⟩
  · rcases k with k | ⟨c, d, hcd, hrc, hld⟩
    · exact f.not_below_self left (k.trans h)
    · exact f.not_inside_of_earlier hcd hrc (h.trans_inside hld).inside
  · rcases k with k | ⟨c, d, hcd, hrc, hld⟩
    · exact f.not_inside_of_earlier hab hla (k.trans_inside hrb).inside
    · exact f.not_crossed hab hcd hla hrb hrc hld

theorem inside_of_mem (h : id ∈ c :: tree.descendants c) : tree.Inside id c := by
  rcases List.mem_cons.mp h with rfl | h
  · exact .self tree id
  · exact (f.mem_descendants_iff.mp h).2.inside

/-- Descendants are listed in document order. -/
theorem pairwise_descendants (scope : NodeId) :
    (tree.descendants scope).Pairwise tree.Precedes := by
  refine f.induct_children (P := fun scope => (tree.descendants scope).Pairwise tree.Precedes)
    ?_ scope
  intro scope step
  rw [f.descendants_eq_flatMap, List.pairwise_flatMap]
  constructor
  · intro c hc
    refine List.pairwise_cons.mpr ⟨fun id hid => ?_, step c (f.parent?_of_mem hc)⟩
    exact .inl (f.mem_descendants_iff.mp hid).2
  · refine (tree.pairwise_earlier scope).imp fun hab left hl right hr => ?_
    exact .inr ⟨_, _, hab, f.inside_of_mem hl, f.inside_of_mem hr⟩

/-- What is kept of the descendants of nodes in document order, each where it is met first, is in
document order too, whether or not those nodes lie below one another. -/
theorem pairwise_eraseDups_descendants {roots : List NodeId} (keep : NodeId → Bool)
    (h : roots.Pairwise tree.Precedes) :
    (roots.flatMap fun root =>
      (tree.descendants root).filter keep).eraseDups.Pairwise tree.Precedes := by
  induction h with
  | nil => exact .nil
  | @cons root roots hroot _ ih =>
    have hsorted : ((tree.descendants root).filter keep).Pairwise tree.Precedes :=
      (f.pairwise_descendants root).filter keep
    rw [List.flatMap_cons, List.eraseDups_append,
      eraseDups_of_nodup ((f.descendants_nodup root).filter keep), List.removeAll,
      eraseDups_filter]
    refine List.pairwise_append.mpr ⟨hsorted, ih.filter _, fun left hl right hr => ?_⟩
    have hl := f.mem_descendants_iff.mp (List.mem_filter.mp hl).1
    obtain ⟨hr, hnew⟩ := List.mem_filter.mp hr
    obtain ⟨other, ho, hr⟩ := List.mem_flatMap.mp (List.mem_eraseDups.mp hr)
    obtain ⟨hr, hkeep⟩ := List.mem_filter.mp hr
    obtain ⟨he, hr⟩ := f.mem_descendants_iff.mp hr
    rcases hroot other ho with hb | ⟨a, b, hab, ha, hb⟩
    · have hmem : right ∈ (tree.descendants root).filter keep :=
        List.mem_filter.mpr ⟨f.mem_descendants_iff.mpr ⟨he, hr.trans hb⟩, hkeep⟩
      simp [hmem] at hnew
    · exact .inr ⟨a, b, hab, (hl.2.trans_inside ha).inside, (hr.trans_inside hb).inside⟩

theorem nodup_of_precedes {ids : List NodeId} (h : ids.Pairwise tree.Precedes) : ids.Nodup := by
  refine h.imp fun hp he => ?_
  subst he
  exact f.not_precedes hp hp

theorem eq_of_precedes {ids others : List NodeId} (h : ids.Pairwise tree.Precedes)
    (k : others.Pairwise tree.Precedes) (hm : ∀ id, id ∈ ids ↔ id ∈ others) : ids = others := by
  have hperm : ids.Perm others :=
    (List.perm_ext_iff_of_nodup (f.nodup_of_precedes h) (f.nodup_of_precedes k)).mpr hm
  exact hperm.eq_of_pairwise (fun _ _ _ _ hl hr => absurd hr (f.not_precedes hl)) h k

end Forest

end Tree

end TreeQuery
