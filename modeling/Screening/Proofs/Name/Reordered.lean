import Mathlib.Data.Rat.Cast.Lemmas
import Screening.Proofs.Name.Prepared
import Screening.Proofs.Similarity.SharedBytes
import Screening.Proofs.Text.Distinct

namespace Screening

namespace NameForms

variable {q q' c c' : NameForms}

theorem soundexes_perm (h : q'.tokens.Perm q.tokens) : q'.soundexes.Perm q.soundexes :=
  (parts_perm h).map _

section Counts

variable {α : Type} [Scalar α]

theorem sharedTokens_of_perm (hq : q'.tokens.Perm q.tokens) (hc : c'.tokens.Perm c.tokens) :
    (q'.sharedTokens c' : α) = q.sharedTokens c := by
  have hdistinct : (Text.distinct q'.tokens).Perm (Text.distinct q.tokens) :=
    Text.distinct_perm fun _ => hq.mem_iff
  have hshared : (Text.distinct q'.tokens).countP c'.tokens.contains =
      (Text.distinct q.tokens).countP c.tokens.contains := by
    rw [hdistinct.countP_eq]
    exact List.countP_congr fun t _ => by simp [hc.mem_iff]
  simp only [sharedTokens, hshared, hdistinct.length_eq, hdistinct.isEmpty_eq]

theorem soundex_of_perm (hq : q'.tokens.Perm q.tokens) (hc : c'.tokens.Perm c.tokens) :
    (q'.soundex c' : α) = q.soundex c := by
  have hcodes : (q'.soundexes.countP fun code => !code.isEmpty && c'.soundexes.contains code) =
      q.soundexes.countP fun code => !code.isEmpty && c.soundexes.contains code := by
    rw [(soundexes_perm hq).countP_eq]
    exact List.countP_congr fun code _ => by simp [(soundexes_perm hc).mem_iff]
  simp only [soundex, hcodes, (parts_perm hq).length_eq, (parts_perm hq).isEmpty_eq]

end Counts

section Closest

variable {K : Type} [ExactScalar K] {part : Text} {parts parts' : List Text}

def closer (part : Text) (best : K) (other : Text) : K :=
  if 0.6 < (Similarity.jaroWinkler part other : K) then max best (Similarity.jaroWinkler part other)
  else best

theorem foldl_closer_of_le {best : K} (h : 1 ≤ best) (parts : List Text) :
    parts.foldl (closer part) best = best := by
  induction parts with
  | nil => rfl
  | cons other parts ih =>
    have hbest : closer part best other = best := by
      unfold closer
      rw [max_eq_left ((Similarity.fraction_jaroWinkler part other).2.trans h), ite_self]
    rw [List.foldl_cons, hbest, ih]

/-- No part that comes after a completely alike one is closer. -/
theorem closestFrom_eq (part : Text) (best : K) (parts : List Text) :
    closestFrom part best parts = parts.foldl (closer part) best := by
  induction parts generalizing best with
  | nil => rfl
  | cons other parts ih =>
    rw [closestFrom, List.foldl_cons, closer, ExactScalar.max_eq]
    dsimp only
    split
    next =>
      split
      next hfull => exact (foldl_closer_of_le hfull parts).symm
      next => exact ih _
    next => exact ih best

theorem closestPart_eq (part : Text) (parts : List Text) :
    (closestPart part parts : K) = parts.foldl (closer part) 0 :=
  closestFrom_eq part 0 parts

theorem closer_right_comm (part : Text) (best : K) (s t : Text) :
    closer part (closer part best s) t = closer part (closer part best t) s := by
  unfold closer
  split <;> split <;> simp [max_right_comm]

theorem closestPart_of_perm (h : parts'.Perm parts) :
    (closestPart part parts' : K) = closestPart part parts := by
  rw [closestPart_eq, closestPart_eq]
  have : RightCommutative (closer (K := K) part) := ⟨closer_right_comm part⟩
  exact h.foldl_eq 0

theorem closestParts_eq (q c : NameForms) : (q.closestParts c : K) =
    if q.parts.isEmpty || c.parts.isEmpty then 0
    else (q.parts.map fun part => (closestPart part c.parts : K)).sum /
      (q.parts.map fun part => (closestPart part c.parts : K)).length := by
  rw [closestParts, List.length_map, ← zero_add (List.sum _), ← ExactScalar.foldl_add, List.foldl_map]

theorem closestParts_of_perm (hq : q'.tokens.Perm q.tokens) (hc : c'.tokens.Perm c.tokens) :
    (q'.closestParts c' : K) = q.closestParts c := by
  have hclosest : (fun part => (closestPart part c'.parts : K)) = fun part => closestPart part c.parts :=
    funext fun _ => closestPart_of_perm (parts_perm hc)
  have hparts := (parts_perm hq).map fun part => (closestPart part c.parts : K)
  rw [closestParts_eq, closestParts_eq, hclosest, hparts.sum_eq, hparts.length_eq,
    (parts_perm hq).isEmpty_eq, (parts_perm hc).isEmpty_eq]

end Closest

end NameForms

/-- The sub-scores that do not hang on the order of the tokens. -/
def NameResemblance.orderFree {α : Type} (r : NameResemblance α) : α × α × α :=
  (r.sharedTokens, r.closestParts, r.soundex)

namespace Comparison

variable {fold : Text → Text} {q q' c c' : Text}

/-- Two values with the same tokens as two others, each in any order, agree as much in their tokens,
in their closest parts and in their codes. -/
theorem names_of_reordered (K : Type) [ExactScalar K] (folding : Folding)
    (hq : (NameForms.ofFold fold q').tokens.Perm (NameForms.ofFold fold q).tokens)
    (hc : (NameForms.ofFold fold c').tokens.Perm (NameForms.ofFold fold c).tokens) :
    ∃ r r' : Option (NameResemblance K), names (.ofFold folding fold) q c = .ok r ∧
      names (.ofFold folding fold) q' c' = .ok r' ∧
        r'.map NameResemblance.orderFree = r.map NameResemblance.orderFree := by
  refine ⟨_, _, names_ofFold folding fold q c, names_ofFold folding fold q' c', ?_⟩
  rw [NameResemblance.compare, NameResemblance.compare, NameForms.isEmpty_of_perm hq,
    NameForms.isEmpty_of_perm hc]
  split
  next => rfl
  next =>
    simp only [Option.map_some, NameResemblance.orderFree, NameForms.sharedTokens_of_perm hq hc,
      NameForms.closestParts_of_perm hq hc, NameForms.soundex_of_perm hq hc]

theorem names_of_reordered_of_repeated :
    let q := Text.of "Anna A. Anna-Maria Li"
    let q' := Text.of "li, ANNAMARIA A Anna"
    let c := Text.of "Maria Anna Anna Lee"
    let c' := Text.of "Lee Anna, Maria Anna"
    ((NameForms.ofFold Text.lower q').tokens.Perm (NameForms.ofFold Text.lower q).tokens ∧
        (NameForms.ofFold Text.lower c').tokens.Perm (NameForms.ofFold Text.lower c).tokens) ∧
      ∃ r r' : Option (NameResemblance ℚ), names .basic q c = .ok r ∧ names .basic q' c' = .ok r' ∧
        r'.map NameResemblance.orderFree = r.map NameResemblance.orderFree := by
  intro q q' c c'
  have hq : (NameForms.ofFold Text.lower q').tokens.Perm (NameForms.ofFold Text.lower q).tokens := by
    decide +kernel
  have hc : (NameForms.ofFold Text.lower c').tokens.Perm (NameForms.ofFold Text.lower c).tokens := by
    decide +kernel
  exact ⟨⟨hq, hc⟩, names_of_reordered ℚ .basic hq hc⟩

end Comparison

end Screening
