import StandardTools.Lib.Except

/-!
# Settings with several sources

A setting has a default and sources in the order of their precedence, the weakest
first. A source that does not mention the setting leaves it to the others.
-/

namespace StandardTools.Lib

variable {α β σ : Type}

def lastSet (default : α) (sources : List (Option α)) : α :=
  sources.foldl (fun value source => source.getD value) default

@[simp] theorem lastSet_nil (default : α) : lastSet default [] = default := rfl

theorem lastSet_concat (default : α) (sources : List (Option α)) (source : Option α) :
    lastSet default (sources ++ [source]) = source.getD (lastSet default sources) := by
  rw [lastSet, List.foldl_append]
  rfl

/-- Layers laid over a record, seen through one of its fields. -/
theorem foldl_lastSet {apply : σ → β → σ} (get : σ → α) (source : β → Option α)
    (h : ∀ s layer, get (apply s layer) = (source layer).getD (get s)) (s : σ) (layers : List β) :
    get (layers.foldl apply s) = lastSet (get s) (layers.map source) := by
  induction layers generalizing s with
  | nil => rfl
  | cons layer rest ih =>
    rw [List.foldl_cons, ih, h]
    rfl

/-- Layers that are read one after the other, each laid over the record at once. -/
theorem foldlM_layers_eq_ok {ε γ : Type} {read : γ → Except ε β} {apply : σ → β → σ} {s s' : σ}
    {sources : List γ} :
    sources.foldlM (fun s source => (read source).map (apply s)) s = .ok s' ↔
      ∃ layers, sources.mapM read = .ok layers ∧ s' = layers.foldl apply s := by
  induction sources generalizing s with
  | nil =>
    simp only [mapM_eq_ok, List.forall₂_nil_left_iff, exists_eq_left, List.foldl_nil]
    exact ⟨fun h => (Except.ok.inj h).symm, fun h => congrArg Except.ok h.symm⟩
  | cons source rest ih =>
    rw [List.foldlM_cons, bind_eq_ok]
    constructor
    · rintro ⟨s₁, hread, hrest⟩
      obtain ⟨layer, hlayer, rfl⟩ := map_eq_ok.mp hread
      obtain ⟨layers, hlayers, rfl⟩ := ih.mp hrest
      exact ⟨layer :: layers, mapM_eq_ok.mpr (.cons hlayer (mapM_eq_ok.mp hlayers)), rfl⟩
    · rintro ⟨layers, hlayers, rfl⟩
      cases mapM_eq_ok.mp hlayers with
      | cons hlayer hrest =>
        exact ⟨_, map_eq_ok.mpr ⟨_, hlayer, rfl⟩, ih.mpr ⟨_, mapM_eq_ok.mpr hrest, rfl⟩⟩

end StandardTools.Lib
