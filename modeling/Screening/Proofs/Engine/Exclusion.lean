import Screening.Proofs.Engine.Solo
import Screening.Proofs.Schema.WellFormed

namespace Screening

open Relation

variable {α : Type}

namespace Overrides

/-- Whether a candidate is to be left out, for its id or for a schema that its own is or inherits
from. -/
def Bars (overrides : Overrides α) (decls : List SchemaDecl) (id schema : Text) : Prop :=
  id ∈ overrides.withoutIds ∨
    ∃ s ∈ overrides.withoutSchemas, ReflTransGen (SchemaDecl.Extends decls) schema s

/-- Whether a candidate is to be left out for nothing but the name of its schema, and the schema is
not declared. -/
def Misses (overrides : Overrides α) (decls : List SchemaDecl) (id schema : Text) : Prop :=
  id ∉ overrides.withoutIds ∧ schema ∈ overrides.withoutSchemas ∧
    schema ∉ decls.map SchemaDecl.name

end Overrides

def NamedRequest.without (drop : Entity → Bool) (r : NamedRequest) : NamedRequest :=
  { r with candidates := r.candidates.filter fun c => !drop c }

namespace SchemaDecl

theorem reach_of_undeclared {decls : List SchemaDecl} {schema ancestor : Text}
    (undeclared : schema ∉ decls.map name) :
    ReflTransGen (Extends decls) schema ancestor ↔ ancestor = schema := by
  constructor
  · intro h
    rcases ReflTransGen.cases_head h with same | ⟨parent, ⟨d, hd, rfl, _⟩, _⟩
    · exact same.symm
    · exact absurd (List.mem_map_of_mem hd) undeclared
  · rintro rfl
    exact .refl

end SchemaDecl

variable [Scalar α]

namespace Engine

variable {engine : Engine α} {catalog : Catalog} {version : Text} {decls : List SchemaDecl}
  {overrides : Overrides α} {requests : List NamedRequest}

omit [Scalar α] in
/-- A candidate is left out where it should be, unless its schema is named but not declared. -/
theorem isExcluded_iff (h : Catalog.create version decls = .ok catalog) (c : Entity) :
    isExcluded catalog overrides c = true ↔
      overrides.Bars decls c.id c.schema ∧ ¬ overrides.Misses decls c.id c.schema := by
  simp only [isExcluded, Bool.or_eq_true, List.any_eq_true, List.contains_iff_mem,
    Catalog.descends_create h]
  by_cases declared : c.schema ∈ decls.map SchemaDecl.name
  · have hmisses : ¬ overrides.Misses decls c.id c.schema := fun hm => hm.2.2 declared
    simp only [declared, true_and, Overrides.Bars, hmisses, not_false_eq_true, and_true]
    exact Or.comm
  · simp only [declared, false_and, and_false, exists_false, false_or, Overrides.Bars,
      Overrides.Misses, SchemaDecl.reach_of_undeclared declared, not_false_eq_true, and_true,
      exists_eq_right]
    by_cases hid : c.id ∈ overrides.withoutIds <;> simp [hid]

section Without

variable {drop : Entity → Bool}
  (excluded : ∀ c, drop c = true → isExcluded engine.catalog overrides c = true)

include excluded

omit [Scalar α] in
/-- What is left out anyway takes up no room among the candidates that are considered. -/
theorem considered_without (most : UInt64) (candidates : List Entity) :
    considered engine.catalog overrides most (candidates.filter fun c => !drop c) =
      considered engine.catalog overrides most candidates := by
  rw [considered, List.filter_filter, considered]
  congr 1
  apply List.filter_congr
  intro c _
  cases hdrop : drop c with
  | false => simp
  | true => simp [excluded c hdrop]

omit [Scalar α] in
theorem batchJobs_without (requests : List NamedRequest) (p : BatchPlan α) :
    engine.batchJobs (requests.map (.without drop)) overrides p =
      engine.batchJobs requests overrides p := by
  have hordered : NamedRequest.ordered (requests.map (.without drop)) =
      (NamedRequest.ordered requests).map (.without drop) :=
    NamedRequest.ordered_map (f := .without drop) (fun _ => rfl) requests
  rw [batchJobs, hordered, List.map_map, batchJobs]
  apply List.map_congr_left
  intro r _
  simp only [Function.comp_apply, batchJob, NamedRequest.without, considered_without excluded]

theorem answerBatch_without (requests : List NamedRequest) :
    engine.answerBatch (requests.map (.without drop)) overrides =
      engine.answerBatch requests overrides := by
  unfold answerBatch
  simp only [batchJobs_without excluded]

end Without

omit [Scalar α] in
theorem mem_batchJobs {p : BatchPlan α} {job : Job α}
    (hjob : job ∈ engine.batchJobs requests overrides p) {c : Entity} (hc : c ∈ job.candidates) :
    isExcluded engine.catalog overrides c = false := by
  obtain ⟨r, _, rfl⟩ := List.mem_map.mp hjob
  simpa using (List.mem_filter.mp (List.mem_of_mem_take hc)).2

theorem mem_respond {deadline : Option Instant} {jobs : List (Job α)}
    {rankings : List (Ranking α)} (hok : (engine.respond deadline jobs).1 = .ok rankings)
    {ranking : Ranking α} (hranking : ranking ∈ rankings) {v : Verdict α}
    (hv : v ∈ ranking.verdicts) :
    ∃ job ∈ jobs, ∃ c ∈ job.candidates, engine.scorer.verdict? job c = some v := by
  unfold respond at hok
  dsimp only at hok
  split at hok
  next => exact nomatch hok
  next =>
    obtain rfl := Except.ok.inj hok
    obtain ⟨p, hp, rfl⟩ := List.mem_map.mp hranking
    obtain ⟨hjob, hc⟩ := Scorer.mem_runJobs deadline hp (Ranking.mem_ofVerdicts _ _ _ hv)
    exact ⟨p.1, hjob, hc⟩

theorem mem_answerBatch {report : BatchReport α}
    (hok : (engine.answerBatch requests overrides).1 = .ok report) {ranking : Ranking α}
    (hranking : ranking ∈ report.rankings) {v : Verdict α} (hv : v ∈ ranking.verdicts) :
    ∃ c, isExcluded engine.catalog overrides c = false ∧ v.candidate = c.id ∧
      v.schema = c.schema := by
  unfold answerBatch at hok
  split at hok
  next => exact nomatch hok
  next p hp =>
    dsimp only at hok
    obtain ⟨rankings, hrankings, rfl⟩ := map_eq_ok.mp hok
    obtain ⟨job, hjob, c, hc, hverdict⟩ := mem_respond hrankings hranking hv
    obtain ⟨assessment, _, rfl⟩ := Option.map_eq_some_iff.mp hverdict
    exact ⟨c, mem_batchJobs hjob hc, rfl, rfl⟩

/-- Whatever a batch leaves out could as well not be there: the report, the clock and the counters
are the same without it, and it is neither considered nor in a ranking. What should be left out is,
unless the schema is left out by name and not declared. -/
theorem answerBatch_excludes (h : Catalog.create version decls = .ok engine.catalog)
    (requests : List NamedRequest) (overrides : Overrides α) :
    (∀ c, isExcluded engine.catalog overrides c = true ↔
      overrides.Bars decls c.id c.schema ∧ ¬ overrides.Misses decls c.id c.schema) ∧
    (∀ drop : Entity → Bool,
      (∀ c, drop c = true → overrides.Bars decls c.id c.schema ∧
        ¬ overrides.Misses decls c.id c.schema) →
      engine.answerBatch (requests.map (.without drop)) overrides =
        engine.answerBatch requests overrides) ∧
    (∀ p, ∀ job ∈ engine.batchJobs requests overrides p, ∀ c ∈ job.candidates,
      overrides.Bars decls c.id c.schema → overrides.Misses decls c.id c.schema) ∧
    ∀ report, (engine.answerBatch requests overrides).1 = .ok report →
      ∀ ranking ∈ report.rankings, ∀ v ∈ ranking.verdicts,
        overrides.Bars decls v.candidate v.schema → overrides.Misses decls v.candidate v.schema := by
  have hmissed {c : Entity} (hc : isExcluded engine.catalog overrides c = false)
      (bars : overrides.Bars decls c.id c.schema) : overrides.Misses decls c.id c.schema := by
    refine Classical.not_not.mp fun hmisses => ?_
    exact absurd ((isExcluded_iff h c).mpr ⟨bars, hmisses⟩) (Bool.eq_false_iff.mp hc)
  refine ⟨isExcluded_iff h, ?_, ?_, ?_⟩
  · intro drop hdrop
    exact answerBatch_without (fun c hc => (isExcluded_iff h c).mpr (hdrop c hc)) requests
  · intro p job hjob c hc
    exact hmissed (mem_batchJobs hjob hc)
  · intro report hok ranking hranking v hv
    obtain ⟨c, hc, hid, hschema⟩ := mem_answerBatch hok hranking hv
    rw [hid, hschema]
    exact hmissed hc

def exceptOrganizations : Overrides Float :=
  { nameBasedOnly with withoutSchemas := [Text.of "Organization"], withoutIds := [Text.of "2"] }

/-- A company inherits from what is left out by its schema, and a person is left out by id. -/
theorem answerBatch_excludes_of_company :
    let decls := Catalog.builtinDecls
    let company : Entity := ⟨Text.of "1", Text.of "Company", []⟩
    let requests : List NamedRequest :=
      [⟨Text.of "a", .person "a" "Al", [company, .person "2" "Al", .person "3" "Al"]⟩]
    let engine : Engine Float := guarded
    Catalog.create Catalog.builtinVersion decls = .ok engine.catalog ∧
      exceptOrganizations.Bars decls company.id company.schema ∧
      engine.answerBatch [⟨Text.of "a", .person "a" "Al", [.person "3" "Al"]⟩] exceptOrganizations =
        engine.answerBatch requests exceptOrganizations := by
  intro decls company requests engine
  have hmade : Catalog.create Catalog.builtinVersion decls = .ok engine.catalog :=
    Catalog.create_builtinDecls
  have hup : SchemaDecl.Extends decls (Text.of "Company") (Text.of "Organization") :=
    ⟨Catalog.companyDecl, by decide, rfl, .head _⟩
  have hcompany : exceptOrganizations.Bars decls company.id company.schema :=
    .inr ⟨_, .head _, .single hup⟩
  let drop (c : Entity) : Bool := decide (c = company ∨ c = .person "2" "Al")
  have hdrop : ∀ c, drop c = true → exceptOrganizations.Bars decls c.id c.schema ∧
      ¬ exceptOrganizations.Misses decls c.id c.schema := by
    intro c hc
    rcases of_decide_eq_true hc with rfl | rfl
    · exact ⟨hcompany, fun hmisses => hmisses.2.2 (by decide)⟩
    · exact ⟨.inl (.head _), fun hmisses => hmisses.1 (.head _)⟩
  obtain ⟨_, hwithout, _⟩ := answerBatch_excludes hmade requests exceptOrganizations
  exact ⟨hmade, hcompany, hwithout drop hdrop⟩

def exceptSpaceships : Overrides Float :=
  { nameBasedOnly with withoutSchemas := [Text.of "Spaceship"] }

/-- A candidate that is to be left out by the name of its schema, but is scored and ranked. -/
theorem spaceship_ranked :
    let engine : Engine Float := guarded
    let requests : List NamedRequest := [⟨Text.of "a", .person "q" "Al",
      [⟨Text.of "1", Text.of "Spaceship", [⟨Text.of "name", [Text.of "Al"]⟩]⟩]⟩]
    Catalog.create Catalog.builtinVersion Catalog.builtinDecls = .ok engine.catalog ∧
      ∃ report, (engine.answerBatch requests exceptSpaceships).1 = .ok report ∧
        ∃ ranking ∈ report.rankings, ∃ v ∈ ranking.verdicts, ranking.scored = 1 ∧
          exceptSpaceships.Bars Catalog.builtinDecls v.candidate v.schema := by
  intro engine requests
  have hranked : (engine.answerBatch requests exceptSpaceships).1.toOption.map
      (fun report => report.rankings.map fun r => (r.scored, r.verdicts.map Verdict.schema)) =
        some [(1, [Text.of "Spaceship"])] := by
    decide +kernel
  refine ⟨Catalog.create_builtinDecls, ?_⟩
  cases hanswer : (engine.answerBatch requests exceptSpaceships).1 with
  | error fault =>
    rw [hanswer] at hranked
    exact nomatch hranked
  | ok report =>
    rw [hanswer] at hranked
    obtain ⟨ranking, hrankings, hranking⟩ := List.map_eq_singleton_iff.mp (Option.some.inj hranked)
    obtain ⟨hscored, hschemas⟩ := Prod.mk.inj hranking
    obtain ⟨v, hverdicts, hschema⟩ := List.map_eq_singleton_iff.mp hschemas
    refine ⟨report, rfl, ranking, ?_, v, ?_, hscored, .inr ⟨v.schema, ?_, .refl⟩⟩
    · rw [hrankings]
      exact .head _
    · rw [hverdicts]
      exact .head _
    · rw [hschema]
      exact .head _

end Engine

end Screening
