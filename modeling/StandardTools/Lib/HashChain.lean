import Mathlib.Data.List.Chain

/-!
# Hash chains

Every entry of a chain carries the digest of the entry before it. Where equal
digests mean equal entries, at least in the `view` that the digest covers, two
chains with the same last digest agree entry by entry, counted from the end,
as far as both of them reach.
-/

namespace StandardTools.Lib

variable {α β H : Type} {digest prev : α → H} {view : α → β}

def Chained (digest prev : α → H) (l : List α) : Prop :=
  l.IsChain fun a b => prev b = digest a

/-- Only the two digests of an entry matter to its chain. -/
theorem Chained.congr {l l' : List α} (h : Chained digest prev l)
    (heq : l'.map (fun a => (prev a, digest a)) = l.map fun a => (prev a, digest a)) :
    Chained digest prev l' := by
  have hmap : ∀ l : List α, Chained digest prev l ↔
      (l.map fun a => (prev a, digest a)).IsChain fun x y => y.1 = x.2 := by
    intro l
    rw [List.isChain_map]
    rfl
  rw [hmap, heq, ← hmap]
  exact h

/-- By induction from the tip backwards: equal digests give equal views, equal
views the same digest of the entry before. -/
theorem Chained.suffix_of_same_tip {l l' : List α} (hl : Chained digest prev l)
    (hl' : Chained digest prev l')
    (hview : ∀ a ∈ l, ∀ b ∈ l', digest a = digest b → view a = view b)
    (hprev : ∀ a ∈ l, ∀ b ∈ l', view a = view b → prev a = prev b)
    (htip : l.getLast?.map digest = l'.getLast?.map digest) :
    l.map view <:+ l'.map view ∨ l'.map view <:+ l.map view := by
  induction l using List.reverseRecOn generalizing l' with
  | nil => exact Or.inl List.nil_suffix
  | append_singleton l a ih =>
    cases l' using List.reverseRecOn with
    | nil => exact Or.inr List.nil_suffix
    | append_singleton l' b =>
      obtain ⟨hchain, -, hlast⟩ := List.isChain_append.mp hl
      obtain ⟨hchain', -, hlast'⟩ := List.isChain_append.mp hl'
      have ha : a ∈ l ++ [a] := List.mem_append_right _ List.mem_cons_self
      have hb : b ∈ l' ++ [b] := List.mem_append_right _ List.mem_cons_self
      have hdigest : digest a = digest b := by
        simpa only [List.getLast?_concat, Option.map_some, Option.some.injEq] using htip
      have hab : view a = view b := hview a ha b hb hdigest
      have hpp : prev a = prev b := hprev a ha b hb hab
      simp only [List.map_append, List.map_cons, List.map_nil, hab]
      cases hc : l.getLast? with
      | none =>
        rw [List.getLast?_eq_none_iff.mp hc]
        exact Or.inl (List.suffix_append _ _)
      | some c =>
        cases hd : l'.getLast? with
        | none =>
          rw [List.getLast?_eq_none_iff.mp hd]
          exact Or.inr (List.suffix_append _ _)
        | some d =>
          have hca : prev a = digest c := hlast c hc a rfl
          have hdb : prev b = digest d := hlast' d hd b rfl
          have htip' : l.getLast?.map digest = l'.getLast?.map digest := by
            rw [hc, hd, Option.map_some, Option.map_some, ← hca, ← hdb, hpp]
          have hrest := ih hchain hchain'
            (fun x hx y hy => hview x (List.mem_append_left _ hx) y (List.mem_append_left _ hy))
            (fun x hx y hy => hprev x (List.mem_append_left _ hx) y (List.mem_append_left _ hy))
            htip'
          rcases hrest with hsuffix | hsuffix
          · exact Or.inl (List.suffix_append_self_iff.mpr hsuffix)
          · exact Or.inr (List.suffix_append_self_iff.mpr hsuffix)

/-- A chain whose first entry points at no digest cannot be extended in front. -/
theorem Chained.eq_of_rooted {l l' : List α} (hl' : Chained digest prev l')
    (hprev : ∀ a ∈ l, ∀ b ∈ l', view a = view b → prev a = prev b)
    (hroot : ∀ a ∈ l.head?, ∀ b ∈ l', digest b ≠ prev a) (hne : l ≠ [])
    (hsuffix : l.map view <:+ l'.map view) : l.map view = l'.map view := by
  obtain ⟨front, hfront⟩ := hsuffix
  obtain ⟨u, w, rfl, hu, hw⟩ := List.map_eq_append_iff.mp hfront.symm
  cases l with
  | nil => exact absurd rfl hne
  | cons a l =>
    obtain ⟨b, w, rfl, hab, -⟩ := List.map_eq_cons_iff.mp hw
    cases u using List.reverseRecOn with
    | nil =>
      rw [← hfront, ← hu]
      rfl
    | append_singleton u c =>
      have hb : b ∈ u ++ [c] ++ b :: w := List.mem_append_right _ List.mem_cons_self
      have hc : c ∈ u ++ [c] ++ b :: w :=
        List.mem_append_left _ (List.mem_append_right _ List.mem_cons_self)
      obtain ⟨-, -, hlink⟩ := List.isChain_append.mp hl'
      have hbc : prev b = digest c := hlink c (List.getLast?_concat ..) b rfl
      have hpp : prev a = prev b := hprev a List.mem_cons_self b hb hab.symm
      exact absurd (hpp.trans hbc).symm (hroot a rfl c hc)

end StandardTools.Lib
