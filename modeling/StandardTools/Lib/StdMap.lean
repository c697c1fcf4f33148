import Mathlib.Data.List.Nodup
import Mathlib.Data.String.Basic
import Mathlib.Logic.Function.Basic

/-!
# `std::map` with string keys

The entries of the map in the order of their keys, each key once. Assigning
under keys which are not there yet permutes the assigned pairs and no more.
-/

namespace StandardTools.Lib

variable {V : Type}

def insertEntry (key : String) (value : V) : List (String × V) → List (String × V)
  | [] => [(key, value)]
  | e :: rest =>
    if key < e.1 then (key, value) :: e :: rest
    else if key = e.1 then (key, value) :: rest
    else e :: insertEntry key value rest

theorem insertEntry_cons (key : String) (value : V) (e : String × V) (rest : List (String × V)) :
    insertEntry key value (e :: rest) =
      if key < e.1 then (key, value) :: e :: rest
      else if key = e.1 then (key, value) :: rest
      else e :: insertEntry key value rest :=
  rfl

theorem mem_insertEntry {key : String} {value : V} {entries : List (String × V)}
    {e : String × V} (h : e ∈ insertEntry key value entries) : e = (key, value) ∨ e ∈ entries := by
  induction entries with
  | nil => exact Or.inl (List.mem_singleton.mp h)
  | cons d rest ih =>
    rw [insertEntry_cons] at h
    split_ifs at h with hlt heq
    · exact List.mem_cons.mp h
    · exact (List.mem_cons.mp h).imp id (List.mem_cons_of_mem _)
    · rcases List.mem_cons.mp h with rfl | h
      · exact Or.inr List.mem_cons_self
      · exact (ih h).imp id (List.mem_cons_of_mem _)

theorem fst_mem_insertEntry {key : String} {value : V} {entries : List (String × V)}
    {e : String × V} (h : e ∈ insertEntry key value entries) : e.1 = key ∨ e ∈ entries :=
  (mem_insertEntry h).imp (congrArg Prod.fst) id

theorem insertEntry_sorted (key : String) (value : V) {entries : List (String × V)}
    (h : entries.Pairwise fun a b => a.1 < b.1) :
    (insertEntry key value entries).Pairwise fun a b => a.1 < b.1 := by
  induction entries with
  | nil => exact List.pairwise_singleton _ _
  | cons d rest ih =>
    obtain ⟨hd, hrest⟩ := List.pairwise_cons.mp h
    rw [insertEntry_cons]
    split_ifs with hlt heq
    · refine List.pairwise_cons.mpr ⟨?_, h⟩
      intro e he
      rcases List.mem_cons.mp he with rfl | he
      · exact hlt
      · exact hlt.trans (hd e he)
    · refine List.pairwise_cons.mpr ⟨?_, hrest⟩
      intro e he
      rw [heq]
      exact hd e he
    · refine List.pairwise_cons.mpr ⟨?_, ih hrest⟩
      intro e he
      rcases fst_mem_insertEntry he with he | he
      · rw [he]
        exact lt_of_le_of_ne (not_lt.mp hlt) (Ne.symm heq)
      · exact hd e he

theorem insertEntry_perm {key : String} (value : V) {entries : List (String × V)}
    (h : key ∉ entries.map Prod.fst) :
    (insertEntry key value entries).Perm ((key, value) :: entries) := by
  induction entries with
  | nil => exact List.Perm.refl _
  | cons d rest ih =>
    rw [List.map_cons, List.mem_cons, not_or] at h
    rw [insertEntry_cons]
    split_ifs with hlt heq
    · exact List.Perm.refl _
    · exact absurd heq h.1
    · exact ((ih h.2).cons d).trans (List.Perm.swap _ _ _)

theorem lookup_cons_eq (k : String) (e : String × V) (entries : List (String × V)) :
    (e :: entries).lookup k = if k = e.1 then some e.2 else entries.lookup k := by
  rw [List.lookup_cons]
  by_cases h : k = e.1
  · rw [if_pos h, beq_iff_eq.mpr h]
  · rw [if_neg h, beq_false_of_ne h]

theorem lookup_insertEntry (key k : String) (value : V) (entries : List (String × V)) :
    (insertEntry key value entries).lookup k =
      if k = key then some value else entries.lookup k := by
  induction entries with
  | nil => exact lookup_cons_eq k (key, value) []
  | cons e rest ih =>
    rw [insertEntry_cons]
    by_cases hlt : key < e.1
    · rw [if_pos hlt, lookup_cons_eq]
    rw [if_neg hlt]
    by_cases heq : key = e.1
    · rw [if_pos heq, lookup_cons_eq, lookup_cons_eq, ← heq]
      by_cases hk : k = key
      · rw [if_pos hk, if_pos hk]
      · rw [if_neg hk, if_neg hk, if_neg hk]
    · rw [if_neg heq, lookup_cons_eq, lookup_cons_eq, ih]
      by_cases hk : k = key
      · rw [if_pos hk, if_neg (hk ▸ heq), if_pos hk]
      · rw [if_neg hk, if_neg hk]

theorem lookup_map (f : String → V → V) (entries : List (String × V)) (key : String) :
    (entries.map fun e => (e.1, f e.1 e.2)).lookup key = (entries.lookup key).map (f key) := by
  induction entries with
  | nil => rfl
  | cons e rest ih =>
    rw [List.map_cons, lookup_cons_eq, lookup_cons_eq]
    by_cases hkey : key = e.1
    · rw [if_pos hkey, if_pos hkey, hkey]
      rfl
    · rw [if_neg hkey, if_neg hkey]
      exact ih

structure StdMap (V : Type) where
  entries : List (String × V)
  sorted : entries.Pairwise fun a b => a.1 < b.1

namespace StdMap

def empty : StdMap V := ⟨[], List.Pairwise.nil⟩

def insert (m : StdMap V) (key : String) (value : V) : StdMap V :=
  ⟨insertEntry key value m.entries, insertEntry_sorted key value m.sorted⟩

def find? (m : StdMap V) (key : String) : Option V := m.entries.lookup key

theorem find?_insert (m : StdMap V) (key : String) (value : V) :
    (m.insert key value).find? = Function.update m.find? key (some value) := by
  funext k
  rw [find?, insert, lookup_insertEntry, Function.update_apply]
  rfl

theorem mem_of_find? {m : StdMap V} {key : String} {value : V} (h : m.find? key = some value) :
    (key, value) ∈ m.entries := by
  obtain ⟨before, after, hentries, -⟩ := List.lookup_eq_some_iff.mp h
  rw [hentries]
  exact List.mem_append_right before List.mem_cons_self

theorem eq_of_mem (m : StdMap V) {key : String} {a b : V} (ha : (key, a) ∈ m.entries)
    (hb : (key, b) ∈ m.entries) : a = b := by
  have hkeys : (m.entries.map Prod.fst).Nodup :=
    List.pairwise_map.mpr (m.sorted.imp fun h => ne_of_lt h)
  exact congrArg Prod.snd (List.inj_on_of_nodup_map hkeys ha hb rfl)

theorem eq_of_perm {m m' : StdMap V} (h : m.entries.Perm m'.entries) : m = m' := by
  have hentries : m.entries = m'.entries :=
    h.eq_of_pairwise (fun a b _ _ hab hba => absurd hab (not_lt.mpr hba.le)) m.sorted m'.sorted
  cases m
  cases m'
  cases hentries
  rfl

def assign (m : StdMap V) (pairs : List (String × V)) : StdMap V :=
  pairs.foldl (fun m e => m.insert e.1 e.2) m

theorem mem_assign {m : StdMap V} {pairs : List (String × V)} {e : String × V}
    (h : e ∈ (m.assign pairs).entries) : e ∈ m.entries ∨ e ∈ pairs := by
  induction pairs generalizing m with
  | nil => exact Or.inl h
  | cons d rest ih =>
    rcases ih h with h | h
    · rcases mem_insertEntry h with rfl | h
      · exact Or.inr List.mem_cons_self
      · exact Or.inl h
    · exact Or.inr (List.mem_cons_of_mem _ h)

def keys (m : StdMap V) : List String := m.entries.map (·.1)

theorem keys_sorted (m : StdMap V) : m.keys.Pairwise (· < ·) := List.pairwise_map.mpr m.sorted

/-- The values replaced under their keys. -/
def mapValues (f : String → V → V) (m : StdMap V) : StdMap V where
  entries := m.entries.map fun e => (e.1, f e.1 e.2)
  sorted := List.pairwise_map.mpr m.sorted

@[simp] theorem keys_mapValues (f : String → V → V) (m : StdMap V) :
    (m.mapValues f).keys = m.keys := by
  rw [keys, mapValues, List.map_map]
  rfl

theorem find?_mapValues (f : String → V → V) (m : StdMap V) (key : String) :
    (m.mapValues f).find? key = (m.find? key).map (f key) := lookup_map f m.entries key

theorem assign_perm (m : StdMap V) {pairs : List (String × V)}
    (h : ((m.entries ++ pairs).map Prod.fst).Nodup) :
    (m.assign pairs).entries.Perm (m.entries ++ pairs) := by
  induction pairs generalizing m with
  | nil => rw [List.append_nil]; exact List.Perm.refl _
  | cons e rest ih =>
    have hmove : ((e.1, e.2) :: m.entries ++ rest).Perm (m.entries ++ e :: rest) :=
      List.perm_middle.symm
    have hnodup : (((e.1, e.2) :: m.entries ++ rest).map Prod.fst).Nodup :=
      (hmove.map Prod.fst).nodup_iff.mpr h
    have hfresh : e.1 ∉ m.entries.map Prod.fst := by
      intro hmem
      rw [List.cons_append, List.map_cons, List.nodup_cons, List.map_append] at hnodup
      exact hnodup.1 (List.mem_append_left _ hmem)
    have hinsert : ((m.insert e.1 e.2).entries ++ rest).Perm ((e.1, e.2) :: m.entries ++ rest) :=
      (insertEntry_perm e.2 hfresh).append_right rest
    have hrest := ih (m.insert e.1 e.2) ((hinsert.map Prod.fst).nodup_iff.mpr hnodup)
    exact hrest.trans (hinsert.trans hmove)

end StdMap

end StandardTools.Lib
