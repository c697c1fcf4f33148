import StandardTools.Lib.Except
import StandardTools.Portfolio.Optimizer

/-!
# What `ValidateReturnMatrix` accepts (`portfolio/optimizer.cpp:28-68`)

Over the reals, where every number is finite, a request passes when its series
are many enough, not too many, of one length, and under labels of their own. The
checked matrix holds the series and the labels of the request in their order.
-/

namespace StandardTools.Portfolio
open StandardTools.Core StandardTools.Lib

theorem duplicateLabel_of_nodup {seen labels : List String} (h : labels.Nodup)
    (hfresh : ∀ label ∈ labels, label ∉ seen) : duplicateLabel seen labels = none := by
  induction labels generalizing seen with
  | nil => rfl
  | cons label rest ih =>
    obtain ⟨hlabel, hrest⟩ := List.nodup_cons.mp h
    rw [duplicateLabel, if_neg (hfresh label List.mem_cons_self)]
    refine ih hrest fun x hx hmem => ?_
    rcases List.mem_cons.mp hmem with rfl | hmem
    · exact hlabel hx
    · exact hfresh x (List.mem_cons_of_mem _ hx) hmem

theorem checkSeries_eq_ok {obs : ℕ} {series : List ℝ × ℕ} :
    checkSeries obs series = .ok () ↔ series.1.length = obs := by
  have hfinite : series.1.findIdx? (fun v => !Double.isFinite v) = none := by
    rw [List.findIdx?_eq_none_iff]
    intro v _
    rfl
  unfold checkSeries
  rw [hfinite]
  by_cases hlen : series.1.length = obs
  · simp [hlen]
  · simp [hlen]

theorem forM_checkSeries {obs : ℕ} {returns : List (List ℝ)} :
    returns.zipIdx.forM (checkSeries obs) = .ok () ↔ ∀ series ∈ returns, series.length = obs := by
  rw [forM_eq_ok]
  constructor
  · intro h series hseries
    obtain ⟨i, hi⟩ := List.mem_iff_getElem?.mp hseries
    exact checkSeries_eq_ok.mp (h (series, i) (List.mem_zipIdx_iff_getElem?.mpr hi))
  · intro h x hx
    exact checkSeries_eq_ok.mpr (h x.1 (List.mem_of_getElem? (List.mem_zipIdx_iff_getElem?.mp hx)))

/-- The conditions of `ValidateReturnMatrix` over the reals, where all is finite. -/
structure Accepted (returns : List (List ℝ)) (labels : List String) (obs : ℕ) : Prop where
  ne_nil : returns ≠ []
  length_le : returns.length ≤ maxAssets
  labels_length : labels.length = returns.length
  nodup : labels.Nodup
  obs_two : 2 ≤ obs
  lengths : ∀ series ∈ returns, series.length = obs

theorem ofFn_getD {series : List ℝ} {obs : ℕ} (h : series.length = obs) :
    List.ofFn (fun t : Fin obs => series.getD t 0) = series := by
  subst h
  refine List.ext_getElem (by simp) fun i hi hi' => ?_
  rw [List.getElem_ofFn, List.getD_eq_getElem?_getD, List.getElem?_eq_getElem hi', Option.getD_some]

variable {returns : List (List ℝ)} {labels : List String}

theorem validateReturnMatrix_inv {m : ReturnMatrix ℝ}
    (h : validateReturnMatrix returns labels = .ok m) :
    Accepted returns labels m.obs ∧ List.ofFn (fun i => List.ofFn (m.returns i)) = returns ∧
      List.ofFn m.labels = labels := by
  unfold validateReturnMatrix at h
  simp only at h
  split_ifs at h with hempty hmax hlabels hobs
  · split at h
    · cases h
    · cases h
  split at h
  · cases h
  rename_i hdup
  obtain ⟨u, hseries, h⟩ := bind_eq_ok.mp h
  have hlengths := forM_checkSeries.mp hseries
  cases h
  refine ⟨⟨hempty, not_lt.mp hmax, not_not.mp hlabels, (nodup_of_duplicateLabel hdup).1,
    not_lt.mp hobs, hlengths⟩, ?_, ?_⟩
  · refine List.ext_getElem (by simp) fun i hi hi' => ?_
    rw [List.getElem_ofFn]
    exact ofFn_getD (hlengths _ (List.getElem_mem hi'))
  · refine List.ext_getElem (by simp [not_not.mp hlabels]) fun i hi hi' => ?_
    rw [List.getElem_ofFn]
    rfl

theorem validateReturnMatrix_ok {obs : ℕ} (h : Accepted returns labels obs) :
    ∃ m, validateReturnMatrix returns labels = .ok m := by
  have hdup : duplicateLabel [] labels = none :=
    duplicateLabel_of_nodup h.nodup fun _ _ => List.not_mem_nil
  have hobs : (returns.head?.map (·.length)).getD 0 = obs := by
    cases returns with
    | nil => exact absurd rfl h.ne_nil
    | cons series rest => exact h.lengths series List.mem_cons_self
  subst hobs
  unfold validateReturnMatrix
  simp only
  rw [dif_neg h.ne_nil, dif_neg (not_lt.mpr h.length_le), dif_neg (not_not_intro h.labels_length)]
  split
  · rename_i hlabel
    rw [hdup] at hlabel
    cases hlabel
  · rw [dif_neg (not_lt.mpr h.obs_two)]
    exact ⟨_, bind_eq_ok.mpr ⟨(), forM_checkSeries.mpr h.lengths, rfl⟩⟩

end StandardTools.Portfolio
