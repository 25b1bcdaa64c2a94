import Mathlib.Data.List.Forall2
import Screening.Entity.Query
import Screening.Proofs.Entity.Entries
import Screening.Proofs.Text.Distinct

namespace Screening

namespace Entity

open Text (nodup_distinct)

/-- The cursors within the parts, in lexicographic order. -/
def cursors : List (List Text) → List (List Nat)
  | [] => [[]]
  | values :: rest => (List.range values.length).flatMap fun i => (cursors rest).map (i :: ·)

def cursorsFrom : (parts : List (List Text)) → (cursor : List Nat) → List (List Nat)
  | values :: rest, i :: is =>
    (cursorsFrom rest is).map (i :: ·) ++
      (List.range' (i + 1) (values.length - (i + 1))).flatMap fun j =>
        (cursors rest).map (j :: ·)
  | _, _ => [[]]

theorem mem_cursors {parts : List (List Text)} {cursor : List Nat} :
    cursor ∈ cursors parts ↔ List.Forall₂ (fun values i => i < values.length) parts cursor := by
  induction parts generalizing cursor with
  | nil => cases cursor <;> simp [cursors]
  | cons values rest ih => cases cursor <;> simp [cursors, ih]

theorem cursors_pairwise (parts : List (List Text)) : (cursors parts).Pairwise (· < ·) := by
  induction parts with
  | nil => simp [cursors]
  | cons values rest ih =>
    rw [cursors, List.pairwise_flatMap]
    refine ⟨fun i _ => ?_, List.pairwise_lt_range.imp fun {i j} hij x hx y hy => ?_⟩
    · exact List.pairwise_map.mpr (ih.imp fun hlt => List.Lex.cons hlt)
    · obtain ⟨is, _, rfl⟩ := List.mem_map.mp hx
      obtain ⟨js, _, rfl⟩ := List.mem_map.mp hy
      exact List.Lex.rel hij

theorem cursorsFrom_start {parts : List (List Text)} {cursor : List Nat}
    (filled : ∀ values ∈ parts, values ≠ []) (hlength : cursor.length = parts.length) :
    cursorsFrom parts (cursor.map fun _ => 0) = cursors parts := by
  induction parts generalizing cursor with
  | nil => simp [cursorsFrom, cursors]
  | cons values rest ih =>
    cases cursor with
    | nil => simp at hlength
    | cons i is =>
      have hrest := ih (fun v hv => filled v (by simp [hv])) (by simpa using hlength)
      have hpos : 0 < values.length := List.length_pos_iff.mpr (filled values (by simp))
      obtain ⟨n, hn⟩ : ∃ n, values.length = n + 1 := ⟨values.length - 1, by omega⟩
      rw [List.map_cons, cursorsFrom, hrest, cursors, hn, List.range_eq_range', List.range'_succ,
        List.flatMap_cons]
      rfl

theorem length_advance {parts : List (List Text)} {cursor next : List Nat}
    (h : advance parts cursor = some next) : next.length = cursor.length := by
  induction parts generalizing cursor next with
  | nil => simp [advance] at h
  | cons values rest ih =>
    cases cursor with
    | nil => simp [advance] at h
    | cons i is =>
      rcases advance_eq_some.mp h with ⟨js, hjs, rfl⟩ | ⟨_, _, rfl⟩
      · simp [ih hjs]
      · simp

theorem cursorsFrom_of_last {parts : List (List Text)} {cursor : List Nat}
    (hlength : cursor.length = parts.length) (h : advance parts cursor = none) :
    cursorsFrom parts cursor = [cursor] := by
  induction parts generalizing cursor with
  | nil =>
    obtain rfl := List.length_eq_zero_iff.mp hlength
    rfl
  | cons values rest ih =>
    cases cursor with
    | nil => simp at hlength
    | cons i is =>
      rw [advance] at h
      split at h
      next => simp at h
      next hnone =>
        split at h
        next => simp at h
        next hi =>
          have hend : values.length - (i + 1) = 0 := by omega
          simp [cursorsFrom, ih (by simpa using hlength) hnone, hend]

/-- The cursors from one on are that one and those from the next on, so none is skipped and none
comes twice. -/
theorem cursorsFrom_advance {parts : List (List Text)} {cursor next : List Nat}
    (filled : ∀ values ∈ parts, values ≠ []) (hlength : cursor.length = parts.length)
    (h : advance parts cursor = some next) :
    cursorsFrom parts cursor = cursor :: cursorsFrom parts next := by
  induction parts generalizing cursor next with
  | nil => simp [advance] at h
  | cons values rest ih =>
    cases cursor with
    | nil => simp at hlength
    | cons i is =>
      have hfilled : ∀ v ∈ rest, v ≠ [] := fun v hv => filled v (by simp [hv])
      have his : is.length = rest.length := by simpa using hlength
      rcases advance_eq_some.mp h with ⟨js, hjs, rfl⟩ | ⟨hnone, hi, rfl⟩
      · simp [cursorsFrom, ih hfilled his hjs]
      · obtain ⟨n, hn⟩ : ∃ n, values.length - (i + 1) = n + 1 :=
          ⟨values.length - (i + 1) - 1, by omega⟩
        have hm : values.length - (i + 1 + 1) = n := by omega
        rw [cursorsFrom, cursorsFrom_of_last his hnone, hn, List.range'_succ, List.flatMap_cons,
          cursorsFrom, cursorsFrom_start hfilled his, hm]
        rfl

def addUpTo (most : Nat) (found : List Text) (name : Text) : List Text :=
  if most ≤ found.length then found else addName name found

theorem foldl_addUpTo_of_full {most : Nat} {found : List Text} (h : most ≤ found.length)
    (names : List Text) : names.foldl (addUpTo most) found = found := by
  induction names with
  | nil => rfl
  | cons name names ih => simpa [addUpTo, h] using ih

theorem combineFrom_eq_foldl {most : Nat} {parts : List (List Text)} {cursor : List Nat}
    (found : List Text) (filled : ∀ values ∈ parts, values ≠ [])
    (hlength : cursor.length = parts.length) :
    combineFrom most parts cursor found =
      ((cursorsFrom parts cursor).map fun c => fullName (chosen parts c)).foldl (addUpTo most)
        found := by
  induction cursor, found using combineFrom.induct most parts with
  | case1 cursor found full => rw [combineFrom, if_pos full, foldl_addUpTo_of_full full]
  | case2 cursor found room found' next moved ih =>
    have hfound : addUpTo most found (fullName (chosen parts cursor)) = found' := if_neg room
    rw [combineFrom, if_neg room, cursorsFrom_advance filled hlength moved, List.map_cons,
      List.foldl_cons, hfound]
    dsimp only
    split
    next other hother =>
      obtain rfl := Option.some.inj (moved.symm.trans hother)
      exact ih ((length_advance moved).trans hlength)
    next hnone => simp [moved] at hnone
  | case3 cursor found room last =>
    have hfound : addUpTo most found (fullName (chosen parts cursor)) =
        addName (fullName (chosen parts cursor)) found := if_neg room
    rw [combineFrom, if_neg room, cursorsFrom_of_last hlength last]
    dsimp only
    split
    next next hnext => simp [last] at hnext
    next => simp [hfound]

theorem foldl_extendName {name : Text} (h : name ≠ []) (values : List Text) :
    values.foldl extendName name = Text.join [32] (name :: values.filter fun v => !v.isEmpty) := by
  induction values generalizing name with
  | nil => simp [Text.join, List.intercalate]
  | cons value values ih =>
    by_cases hv : value = []
    · simp [extendName, hv, ih h]
    · have hlonger : name ++ 32 :: value ≠ [] := by simp
      have hstep : extendName name value = name ++ 32 :: value := by simp [extendName, hv, h]
      rw [List.foldl_cons, hstep, ih hlonger, List.filter_cons_of_pos (by simp [hv])]
      cases values.filter fun v => !v.isEmpty <;> simp [Text.join, List.intercalate]

theorem fullName_eq_join (values : List Text) :
    fullName values = Text.join [32] (values.filter fun v => !v.isEmpty) := by
  induction values with
  | nil => rfl
  | cons value values ih =>
    by_cases hv : value = []
    · simpa [fullName, extendName, hv] using ih
    · have h := foldl_extendName hv values
      simpa [fullName, extendName, hv] using h

/-- Names are added until there are `most`, each at its first occurrence. -/
theorem foldl_addUpTo_eq_take (most : Nat) (found names : List Text) :
    names.foldl (addUpTo most) found = found ++
      ((Text.distinct (names.filter fun n => !n.isEmpty)).filter fun n => !found.contains n).take
        (most - found.length) := by
  induction names generalizing found with
  | nil => simp [Text.distinct]
  | cons name names ih =>
    rw [List.foldl_cons]
    by_cases full : most ≤ found.length
    · have hzero : most - found.length = 0 := by omega
      rw [addUpTo, if_pos full, foldl_addUpTo_of_full full, hzero]
      simp
    · rw [addUpTo, if_neg full, ih]
      by_cases hempty : name = []
      · simp [addName, hempty]
      · rw [List.filter_cons_of_pos (by simp [hempty]), Text.distinct]
        by_cases hold : name ∈ found
        · have hadd : addName name found = found := by simp [addName, hold]
          rw [hadd, List.filter_cons_of_neg (by simp [hold]), List.filter_filter]
          congr 2
          apply List.filter_congr
          intro n _
          by_cases hn : n = name <;> simp [hn, hold]
        · have hadd : addName name found = found ++ [name] := by simp [addName, hempty, hold]
          obtain ⟨k, hk⟩ : ∃ k, most - found.length = k + 1 := ⟨most - found.length - 1, by omega⟩
          have hrest : most - (found ++ [name]).length = k := by simp; omega
          have hseen : (fun n => !(found ++ [name]).contains n) =
              fun n => !found.contains n && n != name := by
            funext n
            by_cases hn : n = name <;> simp [hn]
          rw [hadd, hrest, hseen, hk, List.filter_cons_of_pos (by simp [hold]),
            List.take_succ_cons, List.append_assoc, List.filter_filter, List.singleton_append]

/-- The names that are made of parts of which none is without value. -/
theorem combineNames_eq {parts : List (List Text)} (filled : ∀ values ∈ parts, values ≠ []) :
    combineNames parts = (Text.distinct (((cursors parts).map fun cursor =>
      Text.join [32] ((chosen parts cursor).filter fun v => !v.isEmpty)).filter
        fun n => !n.isEmpty)).take 100 := by
  have hlength : (parts.map fun _ => 0).length = parts.length := by simp
  have hstart := cursorsFrom_start filled hlength
  rw [List.map_map] at hstart
  have hall : cursorsFrom parts (parts.map fun _ => 0) = cursors parts := hstart
  rw [combineNames, combineFrom_eq_foldl [] filled hlength, hall, foldl_addUpTo_eq_take]
  simp [fullName_eq_join, maxNameCombinations]

def withNames (names : List Text) (p : Property) : Property :=
  if p.name = Text.of "name" then ⟨p.name, p.values ++ names.filter fun n => !p.values.contains n⟩
  else p

theorem foldl_add_eq_append {names : List Text} (distinct : names.Nodup) (old : List Text) :
    names.foldl (fun old name => if old.contains name then old else old ++ [name]) old =
      old ++ names.filter fun n => !old.contains n := by
  induction names generalizing old with
  | nil => simp
  | cons name names ih =>
    obtain ⟨hnew, hnames⟩ := List.nodup_cons.mp distinct
    rw [List.foldl_cons, ih hnames]
    by_cases hold : name ∈ old
    · simp [hold]
    · have hrest : names.filter (fun n => !(old ++ [name]).contains n) =
          names.filter fun n => !old.contains n := by
        apply List.filter_congr
        intro n hn
        have hne : n ≠ name := fun heq => hnew (heq ▸ hn)
        simp [hne]
      rw [if_neg (by simpa using hold), hrest, List.filter_cons_of_pos (by simpa using hold)]
      simp

theorem map_withNames_of_absent (names : List Text) {properties : List Property}
    (h : Text.of "name" ∉ properties.map Property.name) :
    properties.map (withNames names) = properties := by
  have hsame : ∀ p ∈ properties, withNames names p = p := by
    intro p hp
    have hother : p.name ≠ Text.of "name" := fun heq => h (heq ▸ List.mem_map_of_mem hp)
    rw [withNames, if_neg hother]
  simpa using List.map_congr_left hsame

theorem addNewNames_eq {names : List Text} (distinct : names.Nodup) {properties : List Property}
    (h : (properties.map Property.name).Nodup) :
    addNewNames names properties =
      if Text.of "name" ∈ properties.map Property.name then properties.map (withNames names)
      else properties ++ [⟨Text.of "name", names⟩] := by
  induction properties with
  | nil => simp [addNewNames]
  | cons p ps ih =>
    rw [List.map_cons, List.nodup_cons] at h
    by_cases hp : p.name = Text.of "name"
    · have hrest := map_withNames_of_absent names (hp ▸ h.1)
      have hfold := foldl_add_eq_append distinct p.values
      rw [addNewNames, if_pos hp, if_pos (by simp [hp]), List.map_cons, hrest, withNames,
        if_pos hp, ← hfold]
    · rw [addNewNames, if_neg hp, ih h.2]
      by_cases hmem : Text.of "name" ∈ ps.map Property.name
      · simp [hmem, withNames, hp]
      · simp [hmem, Ne.symm hp]

theorem nodup_addNewNames {names : List Text} (distinct : names.Nodup) {properties : List Property}
    (h : (properties.map Property.name).Nodup) :
    ((addNewNames names properties).map Property.name).Nodup := by
  have hname : ∀ p, (withNames names p).name = p.name := by
    intro p
    unfold withNames
    split <;> rfl
  rw [addNewNames_eq distinct h]
  split
  next => simpa [Function.comp_def, hname] using h
  next hnew =>
    have hadd := nodup_addValues (Text.of "name") names h
    rwa [addValues_of_new names hnew] at hadd

/-- A query without parts of a name stays as it is. Otherwise the names that it does not have yet
are added to it, of those that the cursors within its parts make the first hundred different ones,
and nothing else changes. The search for them ends, since a cursor that moves on has fewer moves
left. -/
theorem withFullNames_adds_combinations (id schema : Text) (entries : List Property) :
    let query := ofEntries id schema entries
    let parts := (nameParts.map query.property).filter fun values => !values.isEmpty
    (parts = [] → query.withFullNames = query) ∧
    (parts ≠ [] → ∃ cursors : List (List Nat), cursors.Pairwise (· < ·) ∧
      (∀ cursor, cursor ∈ cursors ↔
        List.Forall₂ (fun values i => i < values.length) parts cursor) ∧
      let names := (Text.distinct ((cursors.map fun cursor =>
        Text.join [32] ((chosen parts cursor).filter fun v => !v.isEmpty)).filter
          fun n => !n.isEmpty)).take 100
      query.withFullNames = ⟨id, schema,
        if Text.of "name" ∈ query.properties.map Property.name then
          query.properties.map (withNames names)
        else query.properties ++ [⟨Text.of "name", names⟩]⟩) ∧
    ∀ cursor next, advance parts cursor = some next →
      movesLeft parts next < movesLeft parts cursor := by
  intro query parts
  refine ⟨fun hnone => ?_, fun hsome => ?_, fun cursor next => movesLeft_advance_lt⟩
  · exact if_pos (List.isEmpty_iff.mpr hnone)
  · refine ⟨cursors parts, cursors_pairwise parts, fun cursor => mem_cursors, ?_⟩
    intro names
    have filled : ∀ values ∈ parts, values ≠ [] := by
      intro values hvalues
      simpa using (List.mem_filter.mp hvalues).2
    have hcombined : combineNames parts = names := combineNames_eq filled
    have distinct : names.Nodup := (nodup_distinct _).sublist (List.take_sublist _ _)
    have hquery := nodup_ofEntries id schema entries
    have hadded := nodup_addNewNames distinct hquery
    have hfull : query.withFullNames =
        ofEntries id schema (addNewNames (combineNames parts) query.properties) :=
      if_neg (mt List.isEmpty_iff.mp hsome)
    rw [hfull, hcombined, ofEntries_of_nodup id schema hadded, addNewNames_eq distinct hquery]

/-- An empty value adds nothing, and a name that comes up again is passed over. -/
example : combineNames [[Text.of "Ali", [], Text.of "Ali"], [Text.of "Hassan", Text.of "Hasan"]] =
    ["Ali Hassan", "Ali Hasan", "Hassan", "Hasan"].map Text.of := by
  rw [combineNames_eq (by decide)]
  decide

end Entity

end Screening
