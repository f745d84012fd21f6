import Requirements.Proofs.Check.Handlers
import Requirements.Proofs.Histories

/-! The verdict on a project. The check of owners is the only stage that reports errors; all others
warn. So a composition fails for what it reports exactly if that check found errors, and these are
then all the errors there are. The check of what is missing never decides. -/
namespace Requirements

/-! ### Stages that warn -/

namespace Report

theorem errors_append (first second : List Report) : errors (first ++ second) = errors first ++ errors second :=
  List.filter_append first second

theorem errors_eq_nil_iff {reports : List Report} : errors reports = [] ↔ ∀ report ∈ reports, ¬report.isError :=
  List.filter_eq_nil_iff

theorem hasErrors_eq_false_iff {reports : List Report} : hasErrors reports = false ↔ errors reports = [] := by
  rw [errors_eq_nil_iff, hasErrors, List.any_eq_false]

theorem errors_map_eq_nil {α : Type} {items : List α} {report : α → Report}
    (warns : ∀ item ∈ items, ¬(report item).isError) : errors (items.map report) = [] :=
  errors_eq_nil_iff.mpr (List.forall_mem_map.mpr warns)

end Report

/-- A finding that warns is no error, whatever it is about. -/
theorem Finding.not_isError_reportOn {finding : Finding} (warns : finding.severity = .warning)
    (subject : QualifiedName) (file : String) : ¬(finding.reportOn subject file).isError := by
  rw [isError_reportOn, warns]
  exact Bool.false_ne_true

theorem Element.severity_normalized {settings : Settings} {application : Element} {finding : Finding}
    (found : finding ∈ (application.normalized settings).2) : finding.severity = .warning := by
  simp only [normalized, List.mem_append] at found
  rcases found with (ofId | ofDomain) | ofType
  · split at ofId
    · exact List.mem_singleton.mp ofId ▸ rfl
    · cases ofId
  · split at ofDomain
    · exact List.mem_singleton.mp ofDomain ▸ rfl
    · cases ofDomain
  · split at ofType
    · exact List.mem_singleton.mp ofType ▸ rfl
    · cases ofType

/-- What is changed in the lead application is no error. -/
theorem Document.errors_normalized (settings : Settings) (authored : Document) :
    Report.errors (authored.normalized settings).2 = [] := by
  rw [normalized]
  dsimp only
  split
  next => rfl
  next index application _ =>
    exact Report.errors_map_eq_nil fun _ found =>
      Finding.not_isError_reportOn (Element.severity_normalized found) _ _

namespace Resolution

variable {settings : Settings} {start final : Resolution}

theorem Change.errors (change : Change settings start final) :
    Report.errors final.reports = Report.errors start.reports := by
  cases change with
  | followed step =>
    cases step with
    | reported entry warns =>
      have quiet : Report.errors [entry] = [] := Report.errors_eq_nil_iff.mpr (by simpa using warns)
      change Report.errors (start.reports ++ [entry]) = _
      rw [Report.errors_append, quiet, List.append_nil]
    | loaded | opened | used | drawn => rfl
  | inherited | mixedIn | stoodIn | laidOut => rfl

theorem Changes.errors (changes : Changes settings start final) :
    Report.errors final.reports = Report.errors start.reports := by
  induction changes with
  | refl => rfl
  | tail _ change ih => exact change.errors.trans ih

end Resolution

/-- What is resolved is reported without errors, wherever the run ends. -/
theorem Document.errors_resolved (settings : Settings) (authored : Document) (workspace : Workspace) :
    Report.errors (stateAfter (authored.resolved settings workspace)).reports = [] :=
  Resolution.Changes.errors (Resolving.changes_all _)

theorem Element.errors_assumeTypes (typeName : String) (element : Element) :
    Report.errors (element.assumeTypes typeName).2 = [] :=
  Report.errors_map_eq_nil fun _ _ => Finding.not_isError_reportOn rfl _ _

theorem Document.errors_assumeTypes (typeName : String) (document : Document) :
    Report.errors (document.assumeTypes typeName).2 = [] := by
  rw [Report.errors_eq_nil_iff]
  intro report member
  obtain ⟨outcome, isOutcome, reported⟩ := List.mem_flatMap.mp member
  obtain ⟨element, -, rfl⟩ := List.mem_map.mp isOutcome
  exact Report.errors_eq_nil_iff.mp (element.errors_assumeTypes typeName) report reported

/-- What is missing is no error. -/
theorem Project.errors_completed (settings : Settings) (project : Project) :
    Report.errors (project.completed settings).2 = [] := by
  have orphans (actions : List Element) : Report.errors (actions.map fun action =>
      (Finding.ownerMissing action.name).reportOn action.name action.file) = [] :=
    Report.errors_map_eq_nil fun _ _ => Finding.not_isError_reportOn rfl _ _
  simp only [completed, Report.errors_append, Document.errors_assumeTypes, orphans, List.append_nil]

/-! ### Compositions -/

namespace Composition

/-- Everything that is reported on a document that was resolved, stage by stage: on its lead application,
on its references, on owners and, unless an owner is in error, on what is missing. -/
def collected (settings : Settings) (authored : Document) (resolved : Resolution) : List Report :=
  let ownership := Ownership.settle resolved.project
  (authored.normalized settings).2 ++ resolved.reports ++ ownership.reports ++
    if Report.hasErrors ownership.reports then [] else (ownership.project.completed settings).2

/-- The check of owners decides. -/
theorem ofResolved_eq {settings : Settings} {before : List Report} (quiet : Report.errors before = [])
    (project : Project) :
    ofResolved settings before project =
      if Report.hasErrors (Ownership.settle project).reports then
        .error (.invalid (Report.errors (Ownership.settle project).reports))
      else .ok ⟨((Ownership.settle project).project.completed settings).1,
        before ++ (Ownership.settle project).reports ++ ((Ownership.settle project).project.completed settings).2⟩ := by
  rw [ofResolved]
  dsimp only
  split
  next clean =>
    have quietToo : Report.hasErrors (before ++ (Ownership.settle project).reports ++
        ((Ownership.settle project).project.completed settings).2) = false := by
      rw [Report.hasErrors_eq_false_iff, Report.errors_append, Report.errors_append, quiet, clean,
        Project.errors_completed, List.append_nil, List.append_nil]
    have owned : Report.hasErrors (Ownership.settle project).reports = false :=
      Report.hasErrors_eq_false_iff.mpr clean
    rw [if_neg (Bool.eq_false_iff.mp quietToo), if_neg (Bool.eq_false_iff.mp owned)]
  next flagged =>
    have owned : Report.hasErrors (Ownership.settle project).reports := by
      by_contra clean
      exact flagged (Report.hasErrors_eq_false_iff.mp (Bool.eq_false_iff.mpr clean))
    rw [if_pos owned]

end Composition

namespace Workspace

open Requirements.Composition (collected)

variable {settings : Settings} {workspace : Workspace}

/-- What comes of resolving the document, its lead application in normal form and all that it declares
indexed. -/
def merged (settings : Settings) (authored : Document) (workspace : Workspace) :
    EStateM.Result Failure Resolution Unit :=
  (authored.normalized settings).1.resolved settings (workspace.indexing settings authored)

theorem errors_of_merged {authored : Document} {resolved : Resolution}
    (ran : merged settings authored workspace = .ok () resolved) : Report.errors resolved.reports = [] := by
  have quiet : Report.errors (stateAfter (merged settings authored workspace)).reports = [] :=
    Document.errors_resolved settings _ _
  rwa [ran] at quiet

theorem errors_collected {authored : Document} {resolved : Resolution}
    (ran : merged settings authored workspace = .ok () resolved) :
    Report.errors (collected settings authored resolved) =
      Report.errors (Ownership.settle resolved.project).reports := by
  rw [collected, Report.errors_append, Report.errors_append, Report.errors_append, Document.errors_normalized,
    errors_of_merged ran]
  split
  next => exact List.append_nil _
  next => rw [Project.errors_completed]; exact List.append_nil _

theorem compose_of_merged {authored : Document} {resolved : Resolution}
    (isConnected : workspace.catalogue.isConnected) (ran : merged settings authored workspace = .ok () resolved) :
    compose settings authored workspace =
      if Report.hasErrors (Ownership.settle resolved.project).reports then
        .error (.invalid (Report.errors (collected settings authored resolved))) resolved.workspace
      else .ok ⟨((Ownership.settle resolved.project).project.completed settings).1,
        collected settings authored resolved⟩ resolved.workspace := by
  have quiet : Report.errors ((authored.normalized settings).2 ++ resolved.reports) = [] := by
    rw [Report.errors_append, Document.errors_normalized, errors_of_merged ran, List.append_nil]
  rw [errors_collected ran, compose_eq isConnected, ← merged, ran]
  dsimp only
  rw [Composition.ofResolved_eq quiet]
  by_cases owned : Report.hasErrors (Ownership.settle resolved.project).reports
  · rw [if_pos owned, if_pos owned]
  · rw [if_neg owned, if_neg owned, collected, if_neg owned]

theorem compose_of_merge_fails {authored : Document} {failure : Failure} {state : Resolution}
    (isConnected : workspace.catalogue.isConnected)
    (fails : merged settings authored workspace = .error failure state) :
    compose settings authored workspace = .error failure state.workspace := by
  rw [compose_eq isConnected, ← merged, fails]

/-- No run that resolves references fails for the errors of a check. -/
theorem merged_ne_invalid {authored : Document} {errors : List Report} {state : Resolution} :
    merged settings authored workspace ≠ .error (.invalid errors) state := by
  intro fails
  have outcome : Outcome (fun _ _ => True) (fun failure _ => ∃ kind, Resolving.EndsWalk kind failure)
      (merged settings authored workspace) := Resolving.endsWalk_all _
  rw [fails] at outcome
  obtain ⟨_, ends⟩ := outcome
  exact ends.ne_invalid errors rfl

/-- A document is composed exactly if its references are resolved and nothing that is reported on it is
an error. The reports of a composition are those of the stages in their order, all of them warnings. A
composition that fails for errors tells all of them and nothing else, so it never fails for what is
missing: once owners are settled without an error, it succeeds. -/
theorem compose_verdict (isConnected : workspace.catalogue.isConnected) (authored : Document) :
    ((∃ composition final, compose settings authored workspace = .ok composition final) ↔
      ∃ resolved, merged settings authored workspace = .ok () resolved ∧
        ∀ report ∈ collected settings authored resolved, ¬report.isError) ∧
    (∀ composition final, compose settings authored workspace = .ok composition final →
      ∃ resolved, merged settings authored workspace = .ok () resolved ∧
        composition.reports = (authored.normalized settings).2 ++ resolved.reports ++
          (Ownership.settle resolved.project).reports ++
          ((Ownership.settle resolved.project).project.completed settings).2 ∧
        ∀ report ∈ composition.reports, ¬report.isError) ∧
    (∀ errors final, compose settings authored workspace = .error (.invalid errors) final →
      errors ≠ [] ∧ ∃ resolved, merged settings authored workspace = .ok () resolved ∧
        errors = Report.errors (collected settings authored resolved)) ∧
    ∀ resolved, merged settings authored workspace = .ok () resolved →
      Report.errors (Ownership.settle resolved.project).reports = [] →
      ∃ composition, compose settings authored workspace = .ok composition resolved.workspace := by
  cases ran : merged settings authored workspace with
  | error failure state =>
    have fails := compose_of_merge_fails isConnected ran
    rw [fails]
    refine ⟨⟨nofun, nofun⟩, nofun, ?_, nofun⟩
    rintro errors final ⟨⟩
    exact absurd ran merged_ne_invalid
  | ok done resolved =>
    have composes := compose_of_merged isConnected ran
    have decides := errors_collected ran
    rw [composes]
    -- Only the check of owners reports errors, so it alone tells the two ends apart.
    by_cases owned : Report.hasErrors (Ownership.settle resolved.project).reports
    · have flagged : Report.errors (collected settings authored resolved) ≠ [] := by
        rw [decides, ne_eq, ← Report.hasErrors_eq_false_iff, owned]
        exact Bool.noConfusion
      rw [if_pos owned]
      refine ⟨⟨nofun, ?_⟩, nofun, ?_, ?_⟩
      · rintro ⟨_, ⟨⟩, clean⟩
        exact absurd (Report.errors_eq_nil_iff.mpr clean) flagged
      · rintro errors final ⟨⟩
        exact ⟨flagged, resolved, rfl, rfl⟩
      · rintro _ ⟨⟩ clean
        exact absurd (decides.trans clean) flagged
    · have clean : ∀ report ∈ collected settings authored resolved, ¬report.isError := by
        rw [← Report.errors_eq_nil_iff, decides, ← Report.hasErrors_eq_false_iff]
        exact Bool.eq_false_iff.mpr owned
      have stages : collected settings authored resolved =
          (authored.normalized settings).2 ++ resolved.reports ++ (Ownership.settle resolved.project).reports ++
            ((Ownership.settle resolved.project).project.completed settings).2 := by
        rw [collected, if_neg owned]
      rw [if_neg owned]
      refine ⟨⟨fun _ => ⟨resolved, rfl, clean⟩, fun _ => ⟨_, _, rfl⟩⟩, ?_, nofun, ?_⟩
      · rintro composition final ⟨⟩
        exact ⟨resolved, rfl, stages, clean⟩
      · rintro _ ⟨⟩ _
        exact ⟨_, rfl⟩

theorem compose_verdict_unnamedHandler :
    stoppingLibrary.catalogue.isConnected ∧
      ∃ resolved, merged {} unnamedHandler stoppingLibrary = .ok () resolved ∧
        (∃ report ∈ collected {} unnamedHandler resolved, report.isError) ∧
        ¬∃ composition final, compose {} unnamedHandler stoppingLibrary = .ok composition final := by
  have isConnected : stoppingLibrary.catalogue.isConnected := by decide +kernel
  have ends : ends (fun _ resolved => Report.hasErrors (collected {} unnamedHandler resolved))
      (merged {} unnamedHandler stoppingLibrary) := by decide +kernel
  obtain ⟨_, resolved, ran, flagged⟩ := ok_of_ends ends
  have isError : ∃ report ∈ collected {} unnamedHandler resolved, report.isError := List.any_eq_true.mp flagged
  refine ⟨isConnected, resolved, ran, isError, fun composes => ?_⟩
  obtain ⟨other, ranToo, clean⟩ := (compose_verdict isConnected unnamedHandler).1.mp composes
  obtain rfl : other = resolved := (EStateM.Result.ok.inj (ranToo.symm.trans ran)).2
  obtain ⟨report, member, bad⟩ := isError
  exact clean report member bad

end Workspace
end Requirements
