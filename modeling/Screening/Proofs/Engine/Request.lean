import Screening.Engine.Request

namespace Screening.NamedRequest

theorem mem_put_names {r : NamedRequest} {sorted : List NamedRequest} {name : Text} :
    name ∈ (put r sorted).map NamedRequest.name ↔
      name = r.name ∨ name ∈ sorted.map NamedRequest.name := by
  induction sorted with
  | nil => simp [put]
  | cons s rest ih =>
    simp only [put]
    split
    next same => simp [same]
    next =>
      split
      · simp
      · simp only [List.map_cons, List.mem_cons, ih]
        exact or_left_comm

theorem put_pairwise {r : NamedRequest} {sorted : List NamedRequest}
    (ordered : sorted.Pairwise fun s t => s.name < t.name) :
    (put r sorted).Pairwise fun s t => s.name < t.name := by
  induction sorted with
  | nil => exact List.pairwise_singleton _ _
  | cons s rest ih =>
    have hs := List.pairwise_cons.mp ordered
    simp only [put]
    split
    next same => exact List.pairwise_cons.mpr ⟨fun t ht => same ▸ hs.1 t ht, hs.2⟩
    next different =>
      split
      next before =>
        refine List.pairwise_cons.mpr ⟨fun t ht => ?_, ordered⟩
        rcases List.mem_cons.mp ht with rfl | ht
        · exact before
        · exact List.lt_trans before (hs.1 t ht)
      next behind =>
        have hsr : s.name < r.name :=
          Decidable.byContradiction fun h =>
            different (Std.Trichotomous.trichotomous r.name s.name behind h)
        refine List.pairwise_cons.mpr ⟨fun t ht => ?_, ih hs.2⟩
        rcases mem_put_names.mp (List.mem_map_of_mem ht) with same | old
        · exact same ▸ hsr
        · obtain ⟨u, hu, same⟩ := List.mem_map.mp old
          exact same ▸ hs.1 u hu

theorem foldl_put_pairwise {requests sorted : List NamedRequest}
    (ordered : sorted.Pairwise fun s t => s.name < t.name) :
    (requests.foldl (fun sorted r => put r sorted) sorted).Pairwise fun s t => s.name < t.name := by
  induction requests generalizing sorted with
  | nil => exact ordered
  | cons r requests ih => exact ih (put_pairwise ordered)

theorem mem_foldl_put_names {requests sorted : List NamedRequest} {name : Text} :
    name ∈ (requests.foldl (fun sorted r => put r sorted) sorted).map NamedRequest.name ↔
      name ∈ sorted.map NamedRequest.name ∨ name ∈ requests.map NamedRequest.name := by
  induction requests generalizing sorted with
  | nil => simp
  | cons r requests ih =>
    rw [List.foldl_cons, ih, mem_put_names, List.map_cons, List.mem_cons]
    exact or_assoc.trans or_left_comm

theorem ordered_pairwise (requests : List NamedRequest) :
    (ordered requests).Pairwise fun s t => s.name < t.name :=
  foldl_put_pairwise .nil

theorem mem_ordered_names {requests : List NamedRequest} {name : Text} :
    name ∈ (ordered requests).map NamedRequest.name ↔ name ∈ requests.map NamedRequest.name := by
  rw [ordered, mem_foldl_put_names]
  simp

section Renaming

variable {f : NamedRequest → NamedRequest} (hname : ∀ r, (f r).name = r.name)

include hname

theorem put_map (r : NamedRequest) (sorted : List NamedRequest) :
    put (f r) (sorted.map f) = (put r sorted).map f := by
  induction sorted with
  | nil => rfl
  | cons s rest ih =>
    simp only [List.map_cons, put, hname, ih]
    split
    next => rfl
    next => split <;> rfl

theorem ordered_map (requests : List NamedRequest) :
    ordered (requests.map f) = (ordered requests).map f := by
  have hfold (sorted : List NamedRequest) :
      (requests.map f).foldl (fun sorted r => put r sorted) (sorted.map f) =
        (requests.foldl (fun sorted r => put r sorted) sorted).map f := by
    induction requests generalizing sorted with
    | nil => rfl
    | cons r requests ih => rw [List.map_cons, List.foldl_cons, put_map hname, ih, List.foldl_cons]
  exact hfold []

end Renaming

end Screening.NamedRequest
