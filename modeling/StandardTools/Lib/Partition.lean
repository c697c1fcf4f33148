import Mathlib.Data.List.Basic

/-!
# Partitions of a list

A pass over a list sorts each position to one of two sides and keeps the order on
either. `Partition keep drop l kept dropped` says that `l` falls apart into `kept`,
whose elements are made from those of `l`, and `dropped`.
-/

namespace StandardTools.Lib

inductive Partition {α β : Type} (keep : α → β → Prop) (drop : α → Prop) :
    List α → List β → List α → Prop
  | nil : Partition keep drop [] [] []
  | kept {a : α} {b : β} {l dropped : List α} {kept : List β} (h : keep a b)
      (rest : Partition keep drop l kept dropped) : Partition keep drop (a :: l) (b :: kept) dropped
  | dropped {a : α} {l dropped : List α} {kept : List β} (h : drop a)
      (rest : Partition keep drop l kept dropped) : Partition keep drop (a :: l) kept (a :: dropped)

namespace Partition
variable {α β : Type} {keep keep' : α → β → Prop} {drop drop' : α → Prop} {l dropped : List α}
  {kept : List β}

/-! ### One more element -/

theorem concat_kept (h : Partition keep drop l kept dropped) {a : α} {b : β} (hab : keep a b) :
    Partition keep drop (l ++ [a]) (kept ++ [b]) dropped := by
  induction h with
  | nil => exact .kept hab .nil
  | kept hfirst _ ih => exact .kept hfirst ih
  | dropped hfirst _ ih => exact .dropped hfirst ih

theorem concat_dropped (h : Partition keep drop l kept dropped) {a : α} (ha : drop a) :
    Partition keep drop (l ++ [a]) kept (dropped ++ [a]) := by
  induction h with
  | nil => exact .dropped ha .nil
  | kept hfirst _ ih => exact .kept hfirst ih
  | dropped hfirst _ ih => exact .dropped hfirst ih

/-! ### The two sides -/

theorem exists_of_mem_kept (h : Partition keep drop l kept dropped) {b : β} (hb : b ∈ kept) :
    ∃ a ∈ l, keep a b := by
  induction h with
  | nil => exact absurd hb List.not_mem_nil
  | @kept a b' l _ _ hfirst _ ih =>
    rcases List.mem_cons.mp hb with rfl | hb
    · exact ⟨a, List.mem_cons_self, hfirst⟩
    · obtain ⟨a', ha', hkeep⟩ := ih hb
      exact ⟨a', List.mem_cons_of_mem a ha', hkeep⟩
  | @dropped a l _ _ _ _ ih =>
    obtain ⟨a', ha', hkeep⟩ := ih hb
    exact ⟨a', List.mem_cons_of_mem a ha', hkeep⟩

theorem mem_of_mem_dropped (h : Partition keep drop l kept dropped) {a : α} (ha : a ∈ dropped) :
    a ∈ l := by
  induction h with
  | nil => exact ha
  | kept hfirst _ ih => exact List.mem_cons_of_mem _ (ih ha)
  | dropped hfirst _ ih =>
    rcases List.mem_cons.mp ha with rfl | ha
    · exact List.mem_cons_self
    · exact List.mem_cons_of_mem _ (ih ha)

theorem kept_or_drop (h : Partition keep drop l kept dropped) {a : α} (ha : a ∈ l) :
    (∃ b ∈ kept, keep a b) ∨ drop a := by
  induction h with
  | nil => exact absurd ha List.not_mem_nil
  | @kept a' b l _ kept hfirst _ ih =>
    rcases List.mem_cons.mp ha with rfl | ha
    · exact Or.inl ⟨b, List.mem_cons_self, hfirst⟩
    · exact (ih ha).imp_left fun ⟨b', hb', hkeep⟩ => ⟨b', List.mem_cons_of_mem b hb', hkeep⟩
  | dropped hfirst _ ih =>
    rcases List.mem_cons.mp ha with rfl | ha
    · exact Or.inr hfirst
    · exact ih ha

theorem mono (h : Partition keep drop l kept dropped) (hkeep : ∀ a ∈ l, ∀ b, keep a b → keep' a b)
    (hdrop : ∀ a ∈ l, drop a → drop' a) : Partition keep' drop' l kept dropped := by
  induction h with
  | nil => exact .nil
  | kept hfirst _ ih =>
    rw [List.forall_mem_cons] at hkeep hdrop
    exact .kept (hkeep.1 _ hfirst) (ih hkeep.2 hdrop.2)
  | dropped hfirst _ ih =>
    rw [List.forall_mem_cons] at hkeep hdrop
    exact .dropped (hdrop.1 hfirst) (ih hkeep.2 hdrop.2)

end Partition

end StandardTools.Lib
