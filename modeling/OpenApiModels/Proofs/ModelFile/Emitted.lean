import OpenApiModels.Generation
import OpenApiModels.Proofs.ModelFile.DeclaredNames
import OpenApiModels.Proofs.Workspace.ReadWrite

/-!
# Files in the standard layout

Without templates rendering reads nothing and cannot fail: it yields one file for each model and
the index (`value_render`).
-/

namespace OpenApiModels.Generation

open TypeScript

/-- The header and the comments of the files of a model. -/
def layoutOf (info : Info) (comments : Bool) : ModelFile.LayoutOptions :=
  ⟨info.title, info.version, comments⟩

def fileOf (layout : ModelFile.LayoutOptions) (f : ModelFile) : Rendered :=
  ⟨modelPath f.name, String.ofList (f.text layout)⟩

/-- The index for files of these names. -/
def indexOf (modules : List String) : Rendered :=
  ⟨modelPath "index", String.ofList (ModelFile.indexText modules)⟩

/-- The files of a model in the standard layout. -/
def emitted (dialect : Dialect) (comments : Bool) (m : Model) : List Rendered :=
  (ModelFile.ofModel dialect m).map (fileOf (layoutOf m.info comments)) ++
    [indexOf ((ModelFile.ofModel dialect m).map (·.name))]

/-- Options without templates. -/
def standard (comments : Bool) : GenerationOptions where
  comments

theorem value_renderPlan (comments : Bool) (layout : ModelFile.LayoutOptions)
    (plan : List ModelFile.Planned) (w : Workspace) :
    ((renderPlan (standard comments) layout plan).outcome w).value =
      (.ok ((plan.filterMap fun
        | .file f => some f
        | .repeated _ _ => none).map (fileOf layout)), w) := by
  induction plan with
  | nil => rfl
  | cons planned rest ih =>
    cases planned with
    | file f =>
      have first : (renderModel (standard comments) layout f).outcome w =
          pure (.ok (fileOf layout f), w) := rfl
      rw [renderPlan, Action.outcome_bind first, Action.value_outcome_bind ih]
      rfl
    | repeated schema type =>
      rw [renderPlan, Action.value_outcome_bind (Action.value_outcome_logged _ w)]
      exact ih

/-- Rendering in the standard layout leaves the workspace alone and always succeeds. -/
theorem value_render (adapter : Adapter) (comments : Bool) (m : Model) (w : Workspace) :
    ((render adapter (standard comments) m).outcome w).value =
      (.ok (emitted adapter.dialect comments m), w) := by
  have files := value_renderPlan comments (layoutOf m.info comments)
    (ModelFile.plan adapter.dialect [] m.schemas) w
  have unfolded : render adapter (standard comments) m =
      (renderPlan (standard comments) (layoutOf m.info comments)
        (ModelFile.plan adapter.dialect [] m.schemas) >>= fun files =>
          renderIndex (standard comments) ((ModelFile.ofModel adapter.dialect m).map (·.name)) >>=
            fun index => pure (files ++ [index])) := rfl
  rw [unfolded, Action.value_outcome_bind files]
  rfl

end OpenApiModels.Generation
