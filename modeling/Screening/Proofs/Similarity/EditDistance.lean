import Mathlib.Data.List.Induction
import Mathlib.Order.Bounds.Defs
import Mathlib.Order.MinMax
import Screening.Similarity.EditDistance

namespace Screening.Similarity

/-- An insertion, a deletion or a substitution of a byte. -/
inductive Edit : Text → Text → Prop
  | insert (first rest : Text) (b : UInt8) : Edit (first ++ rest) (first ++ b :: rest)
  | delete (first rest : Text) (a : UInt8) : Edit (first ++ a :: rest) (first ++ rest)
  | substitute (first rest : Text) (a b : UInt8) : Edit (first ++ a :: rest) (first ++ b :: rest)

inductive Edits : Nat → Text → Text → Prop
  | none (s : Text) : Edits 0 s s
  | more {n : Nat} {s t u : Text} : Edit s t → Edits n t u → Edits (n + 1) s u

section Edits

variable {m n : Nat} {s t u : Text}

theorem Edit.symm (h : Edit s t) : Edit t s := by
  cases h with
  | insert first rest b => exact .delete first rest b
  | delete first rest a => exact .insert first rest a
  | substitute first rest a b => exact .substitute first rest b a

theorem Edit.cons (a : UInt8) (h : Edit s t) : Edit (a :: s) (a :: t) := by
  cases h with
  | insert first rest b => exact .insert (a :: first) rest b
  | delete first rest b => exact .delete (a :: first) rest b
  | substitute first rest b c => exact .substitute (a :: first) rest b c

theorem Edit.reverse (h : Edit s t) : Edit s.reverse t.reverse := by
  cases h with
  | insert first rest b => simpa using Edit.insert rest.reverse first.reverse b
  | delete first rest a => simpa using Edit.delete rest.reverse first.reverse a
  | substitute first rest a b => simpa using Edit.substitute rest.reverse first.reverse a b

theorem Edits.append (h : Edits m s t) (k : Edits n t u) : Edits (m + n) s u := by
  induction h with
  | none => rwa [Nat.zero_add]
  | more edit _ ih =>
    rw [Nat.succ_add]
    exact .more edit (ih k)

theorem Edits.symm (h : Edits n s t) : Edits n t s := by
  induction h with
  | none s => exact .none s
  | more edit _ ih => exact ih.append (.more edit.symm (.none _))

theorem Edits.cons (a : UInt8) (h : Edits n s t) : Edits n (a :: s) (a :: t) := by
  induction h with
  | none s => exact .none (a :: s)
  | more edit _ ih => exact .more (edit.cons a) ih

theorem Edits.reverse (h : Edits n s t) : Edits n s.reverse t.reverse := by
  induction h with
  | none s => exact .none s.reverse
  | more edit _ ih => exact .more edit.reverse ih

theorem Edits.eq_of_zero (h : Edits 0 s t) : s = t := by
  cases h
  rfl

end Edits

/-- The distance by recursion on both texts: the first byte of one is deleted or inserted, or it takes
the place of the first byte of the other. -/
def distance : Text → Text → Nat
  | [], t => t.length
  | a :: s, [] => s.length + 1
  | a :: s, b :: t => min (min (distance s (b :: t) + 1) (distance (a :: s) t + 1))
      (distance s t + if a = b then 0 else 1)

section Distance

variable {m n : Nat} {s t u : Text}

theorem distance_nil (s : Text) : distance s [] = s.length := by
  cases s <;> simp [distance]

theorem distance_cons_le (a : UInt8) (s t : Text) : distance (a :: s) t ≤ distance s t + 1 := by
  cases t with
  | nil => simp [distance_nil]
  | cons b t =>
    rw [distance]
    omega

theorem distance_le_cons (b : UInt8) (s t : Text) : distance s (b :: t) ≤ distance s t + 1 := by
  cases s with
  | nil => simp [distance]
  | cons a s =>
    rw [distance]
    omega

theorem distance_le_distance_cons (a : UInt8) (s t : Text) :
    distance s t ≤ distance (a :: s) t + 1 := by
  induction t with
  | nil =>
    rw [distance_nil, distance_nil, List.length_cons]
    omega
  | cons b t ih =>
    have hgrow := distance_le_cons b s t
    rw [distance]
    omega

theorem distance_cons_le_cons (a b : UInt8) (s t : Text) :
    distance (a :: s) t ≤ distance (b :: s) t + 1 := by
  induction t with
  | nil => simp [distance_nil]
  | cons c t ih =>
    have hcost : (if a = c then 0 else 1) ≤ 1 := by split <;> omega
    rw [distance, distance]
    omega

theorem distance_cons_of_near (a : UInt8) (near : ∀ u, distance s u ≤ distance t u + 1) (u : Text) :
    distance (a :: s) u ≤ distance (a :: t) u + 1 := by
  induction u with
  | nil => simpa [distance_nil] using near []
  | cons b u ih =>
    have hdelete := near (b :: u)
    have hcost := near u
    rw [distance, distance]
    omega

theorem distance_append_of_near (first : Text) (near : ∀ u, distance s u ≤ distance t u + 1)
    (u : Text) : distance (first ++ s) u ≤ distance (first ++ t) u + 1 := by
  induction first generalizing u with
  | nil => exact near u
  | cons a first ih => exact distance_cons_of_near a ih u

theorem distance_le_of_edit (h : Edit s t) (u : Text) : distance s u ≤ distance t u + 1 := by
  cases h with
  | insert first rest b => exact distance_append_of_near first (distance_le_distance_cons b rest) u
  | delete first rest a => exact distance_append_of_near first (distance_cons_le a rest) u
  | substitute first rest a b => exact distance_append_of_near first (distance_cons_le_cons a b rest) u

theorem distance_self (s : Text) : distance s s = 0 := by
  induction s with
  | nil => simp [distance]
  | cons a s ih => simp [distance, ih]

theorem distance_le_of_edits (h : Edits n s t) : distance s t ≤ n := by
  induction h with
  | none s => exact Nat.le_of_eq (distance_self s)
  | @more n s t u edit _ ih => exact Nat.le_trans (distance_le_of_edit edit u) (Nat.succ_le_succ ih)

theorem edits_nil (t : Text) : Edits t.length [] t := by
  induction t with
  | nil => exact .none []
  | cons b t ih => exact .more (.insert [] [] b) (ih.cons b)

theorem edits_distance (s t : Text) : Edits (distance s t) s t := by
  induction s, t using distance.induct with
  | case1 t =>
    rw [distance]
    exact edits_nil t
  | case2 a s =>
    rw [distance_nil]
    exact (edits_nil (a :: s)).symm
  | case3 a s b t ihs iht ih =>
    have hdelete : Edits (distance s (b :: t) + 1) (a :: s) (b :: t) := .more (.delete [] s a) ihs
    have hinsert : Edits (distance (a :: s) t + 1) (a :: s) (b :: t) :=
      .more (.insert [] (a :: s) b) (iht.cons b)
    have hhead : Edits (distance s t + if a = b then 0 else 1) (a :: s) (b :: t) := by
      by_cases h : a = b
      · subst h
        simpa using ih.cons a
      · rw [if_neg h]
        exact .more (.substitute [] s a b) (ih.cons b)
    rw [distance]
    exact min_rec' (Edits · (a :: s) (b :: t)) (min_rec' (Edits · _ _) hdelete hinsert) hhead

/-- The distance is the number of edits in the shortest run of edits. -/
theorem distance_isLeast (s t : Text) : IsLeast {n | Edits n s t} (distance s t) :=
  ⟨edits_distance s t, fun _ h => distance_le_of_edits h⟩

theorem distance_reverse (s t : Text) : distance s.reverse t.reverse = distance s t := by
  apply Nat.le_antisymm
  · exact distance_le_of_edits (edits_distance s t).reverse
  · have h := distance_le_of_edits (edits_distance s.reverse t.reverse).reverse
    rwa [List.reverse_reverse, List.reverse_reverse] at h

end Distance

/-- The distances of `x` to `done` and to what `done` becomes as one byte after the other is put in
front of it. -/
def distancesFrom (x : Text) : (done rest : Text) → List Nat
  | done, [] => [distance x done]
  | done, b :: rest => distance x done :: distancesFrom x (b :: done) rest

section Rows

theorem distancesFrom_eq_cons (x done rest : Text) :
    distancesFrom x done rest = distance x done :: (distancesFrom x done rest).tail := by
  cases rest <;> rfl

theorem distancesFrom_nil (done rest : Text) :
    distancesFrom [] done rest = List.range' done.length (rest.length + 1) := by
  induction rest generalizing done with
  | nil => simp [distancesFrom, distance]
  | cons b rest ih =>
    rw [distancesFrom, ih, distance, List.length_cons, ← List.range'_succ, List.length_cons]

theorem getLastD_distancesFrom (x done rest : Text) :
    (distancesFrom x done rest).getLastD 0 = distance x (rest.reverse ++ done) := by
  induction rest generalizing done with
  | nil => rfl
  | cons b rest ih =>
    have hlast := ih (b :: done)
    rw [distancesFrom_eq_cons] at hlast
    rw [distancesFrom, distancesFrom_eq_cons, List.reverse_cons, List.append_assoc]
    exact hlast

theorem rowFrom_distancesFrom (a : UInt8) (x done rest : Text) :
    rowFrom a (distance x done) (distance (a :: x) done) rest (distancesFrom x done rest).tail =
      (distancesFrom (a :: x) done rest).tail := by
  induction rest generalizing done with
  | nil => rfl
  | cons b rest ih =>
    have habove := distancesFrom_eq_cons x (b :: done) rest
    have hhere := distancesFrom_eq_cons (a :: x) (b :: done) rest
    have hcell : min (min (distance x (b :: done) + 1) (distance (a :: x) done + 1))
        (distance x done + if a = b then 0 else 1) = distance (a :: x) (b :: done) := by
      rw [distance]
    rw [distancesFrom, distancesFrom, List.tail_cons, List.tail_cons, habove, rowFrom, hcell, ih,
      ← hhere]

theorem lastRow_eq (s t : Text) : lastRow s t = distancesFrom s.reverse [] t := by
  induction s using List.reverseRecOn with
  | nil =>
    rw [lastRow, List.foldl_nil, List.range_eq_range']
    exact (distancesFrom_nil [] t).symm
  | append_singleton s a ih =>
    have hrow := distancesFrom_eq_cons s.reverse [] t
    have hnext := distancesFrom_eq_cons (a :: s.reverse) [] t
    have hcells := rowFrom_distancesFrom a s.reverse [] t
    rw [lastRow] at ih
    rw [lastRow, List.foldl_append, ih, List.foldl_cons, List.foldl_nil, List.reverse_append,
      List.reverse_singleton, List.singleton_append, hrow, hnext, ← hcells, nextRow]
    simp [distance_nil]

theorem levenshtein_eq_distance (s t : Text) : levenshtein s t = distance s t := by
  rw [levenshtein, lastRow_eq, getLastD_distancesFrom, List.append_nil, distance_reverse]

end Rows

/-- The edit distance is the least number of edits that turn one text into the other, and so it is
zero between equal texts only, the same in both directions, and no longer than a way through a third
text. -/
theorem levenshtein_isLeast (s t : Text) :
    IsLeast {n | Edits n s t} (levenshtein s t) ∧ (levenshtein s t = 0 ↔ s = t) ∧
      levenshtein t s = levenshtein s t ∧
      ∀ u, levenshtein s u ≤ levenshtein s t + levenshtein t u := by
  simp only [levenshtein_eq_distance]
  refine ⟨distance_isLeast s t, ⟨fun hzero => ?_, ?_⟩, ?_, fun u => ?_⟩
  · have h := edits_distance s t
    rw [hzero] at h
    exact h.eq_of_zero
  · rintro rfl
    exact distance_self s
  · apply Nat.le_antisymm
    · exact distance_le_of_edits (edits_distance s t).symm
    · exact distance_le_of_edits (edits_distance t s).symm
  · exact distance_le_of_edits ((edits_distance s t).append (edits_distance t u))

/-- A substitution, another one, and an insertion. -/
example : levenshtein (Text.of "kitten") (Text.of "sitting") = 3 := by decide

end Screening.Similarity
