import Mathlib.Data.List.Basic
import Mathlib.Data.List.Induction
import Mathlib.Data.Set.Function

/-! Lists without their repetitions.
Each member is kept where it comes first, so the order is that of first occurrence. A list that
grows at its end keeps what it has; leaving members out or naming them anew changes the place of
none. -/
namespace TreeQuery

variable {α β : Type} [BEq α] [LawfulBEq α]

theorem eraseDups_concat (list : List α) (a : α) :
    (list ++ [a]).eraseDups = if a ∈ list then list.eraseDups else list.eraseDups ++ [a] := by
  rw [List.eraseDups_append, List.cons_removeAll]
  by_cases h : a ∈ list
  · rw [if_neg (by simpa using h), if_pos h]
    exact List.append_nil _
  · rw [if_pos (by simpa using h), if_neg h]
    rfl

/-- What is left of a list without its repetitions stands in the order of first occurrence. -/
theorem pairwise_eraseDups (list : List α) :
    list.eraseDups.Pairwise fun a b => list.idxOf a < list.idxOf b := by
  induction list using List.reverseRecOn with
  | nil => exact .nil
  | append_singleton list a ih =>
    have hold : ∀ b ∈ list.eraseDups, (list ++ [a]).idxOf b = list.idxOf b :=
      fun b hb => List.idxOf_append_of_mem (List.mem_eraseDups.mp hb)
    have hpair : list.eraseDups.Pairwise fun b c =>
        (list ++ [a]).idxOf b < (list ++ [a]).idxOf c := by
      refine ih.imp_of_mem fun {b c} hb hc hlt => ?_
      rw [hold b hb, hold c hc]
      exact hlt
    rw [eraseDups_concat]
    split
    · exact hpair
    · rename_i ha
      refine List.pairwise_append.mpr ⟨hpair, List.pairwise_singleton _ a, fun b hb c hc => ?_⟩
      have hlt : list.idxOf b < list.length :=
        List.idxOf_lt_length_iff.mpr (List.mem_eraseDups.mp hb)
      rw [List.mem_singleton.mp hc, hold b hb, List.idxOf_append_of_notMem ha]
      omega

theorem nodup_eraseDups (list : List α) : list.eraseDups.Nodup :=
  (pairwise_eraseDups list).imp fun hlt he => absurd (he ▸ hlt) (Nat.lt_irrefl _)

theorem eraseDups_of_nodup {list : List α} (h : list.Nodup) : list.eraseDups = list := by
  induction list with
  | nil => rfl
  | cons a list ih =>
    obtain ⟨ha, hn⟩ := List.nodup_cons.mp h
    have hne : ∀ b ∈ list, (!b == a) = true := by
      intro b hb
      rw [Bool.not_eq_true', beq_eq_false_iff_ne]
      exact ne_of_mem_of_not_mem hb ha
    rw [List.eraseDups_cons, List.filter_eq_self.mpr hne, ih hn]

theorem eraseDups_filter (keep : α → Bool) (list : List α) :
    (list.filter keep).eraseDups = list.eraseDups.filter keep := by
  match list with
  | [] => rfl
  | a :: list =>
    have ih := eraseDups_filter keep (list.filter fun b => !b == a)
    rw [List.eraseDups_cons, List.filter_cons, List.filter_cons]
    cases ha : keep a with
    | true => rw [if_pos rfl, if_pos rfl, List.eraseDups_cons, ← ih, List.filter_comm]
    | false =>
      have hne : ∀ b ∈ list.filter keep, (!b == a) = true := by
        intro b hb
        rw [Bool.not_eq_true', beq_eq_false_iff_ne]
        rintro rfl
        exact absurd (ha.symm.trans (List.mem_filter.mp hb).2) nofun
      rw [if_neg nofun, if_neg nofun, ← ih, List.filter_comm, List.filter_eq_self.mpr hne]
termination_by list.length
decreasing_by exact Nat.lt_succ_of_le (List.length_filter_le _ _)

theorem eraseDups_map [BEq β] [LawfulBEq β] {image : α → β} {list : List α}
    (h : Set.InjOn image {a | a ∈ list}) :
    (list.map image).eraseDups = list.eraseDups.map image := by
  match list with
  | [] => rfl
  | a :: list =>
    have hsame : ∀ b ∈ list, (!(image b == image a)) = !(b == a) := by
      intro b hb
      have hba : image b = image a ↔ b = a :=
        h.eq_iff (List.mem_cons_of_mem a hb) List.mem_cons_self
      rw [Bool.eq_iff_iff, Bool.not_eq_true', Bool.not_eq_true', beq_eq_false_iff_ne,
        beq_eq_false_iff_ne]
      exact not_congr hba
    have hrest : Set.InjOn image {b | b ∈ list.filter fun b => !(b == a)} :=
      h.mono fun b hb => List.mem_cons_of_mem a (List.mem_filter.mp hb).1
    rw [List.map_cons, List.eraseDups_cons, List.eraseDups_cons, List.map_cons, List.filter_map,
      ← eraseDups_map hrest]
    exact congrArg (fun rest => image a :: (rest.map image).eraseDups) (List.filter_congr hsame)
termination_by list.length
decreasing_by exact Nat.lt_succ_of_le (List.length_filter_le _ _)

end TreeQuery
