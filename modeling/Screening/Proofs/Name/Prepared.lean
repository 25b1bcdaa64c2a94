import Screening.Comparison
import Screening.Proofs.Text.Cleaned

namespace Screening

namespace NameForms

def ofFold (fold : Text → Text) (value : Text) : NameForms := ⟨value, (fold value).dropPunctuation⟩

theorem isEmpty_iff {name : NameForms} : name.isEmpty = true ↔ name.cleaned = [] := List.isEmpty_iff

theorem tokens_eq_nil {fold : Text → Text} {value : Text} :
    (ofFold fold value).tokens = [] ↔ (ofFold fold value).cleaned = [] :=
  Text.words_dropPunctuation_eq_nil

theorem isEmpty_of_perm {fold : Text → Text} {v v' : Text}
    (h : (ofFold fold v').tokens.Perm (ofFold fold v).tokens) :
    (ofFold fold v').isEmpty = (ofFold fold v).isEmpty := by
  rw [Bool.eq_iff_iff, isEmpty_iff, isEmpty_iff, ← tokens_eq_nil, ← tokens_eq_nil]
  exact ⟨fun hnil => (hnil ▸ h).nil_eq.symm, fun hnil => (hnil ▸ h).eq_nil⟩

theorem parts_perm {q q' : NameForms} (h : q'.tokens.Perm q.tokens) : q'.parts.Perm q.parts :=
  h.filter _

end NameForms

variable {α : Type} [Scalar α] {q c : NameForms}

theorem NameResemblance.compare_eq_none :
    (compare q c : Option (NameResemblance α)) = none ↔ q.cleaned = [] ∨ c.cleaned = [] := by
  simp [compare, NameForms.isEmpty_iff, or_iff_not_imp_left]

theorem NameResemblance.cleaned_of_compare {r : NameResemblance α} (h : compare q c = some r) :
    q.cleaned ≠ [] ∧ c.cleaned ≠ [] := by
  rw [← not_or, ← compare_eq_none (α := α), h]
  exact Option.some_ne_none r

theorem NameResemblance.compare_eq_some (hq : q.cleaned ≠ []) (hc : c.cleaned ≠ []) :
    (compare q c : Option (NameResemblance α)) = some {
      literal := q.literal c
      sharedTokens := q.sharedTokens c
      jaroWinkler := q.jaroWinkler c
      closestParts := q.closestParts c
      levenshtein := q.levenshtein c
      phonetic := q.phonetic c
      soundex := q.soundex c } := by
  have hsome : ¬ (q.isEmpty || c.isEmpty) = true := by
    rw [Bool.or_eq_true, NameForms.isEmpty_iff, NameForms.isEmpty_iff]
    exact not_or.mpr ⟨hq, hc⟩
  rw [compare, if_neg hsome]

theorem Comparison.names_ofFold (folding : Folding) (fold : Text → Text) (query candidate : Text) :
    (names (.ofFold folding fold) query candidate : Except _ (Option (NameResemblance α))) =
      .ok (NameResemblance.compare (.ofFold fold query) (.ofFold fold candidate)) := rfl

end Screening
