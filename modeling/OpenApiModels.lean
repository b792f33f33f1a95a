import OpenApiModels.Main
import OpenApiModels.Proofs.Spec.CanonicalMembers
import OpenApiModels.Proofs.Spec.Extensions
import OpenApiModels.Proofs.Json.StringText
import OpenApiModels.Proofs.Workspace.ReadWrite
import OpenApiModels.Proofs.Spec.Restamping
import OpenApiModels.Proofs.Spec.ContentChecksum
import OpenApiModels.Proofs.Json.RoundTrip
import OpenApiModels.Proofs.Text.Finding
import OpenApiModels.Proofs.TypeScript.Lexing
import OpenApiModels.Proofs.TypeScript.Renaming
import OpenApiModels.Proofs.Retyping.FirstOccurrence
import OpenApiModels.Proofs.TypeScript.Declarations
import OpenApiModels.Proofs.Retyping.TypeTokens
import OpenApiModels.Proofs.Retyping.EnumText
import OpenApiModels.Proofs.Retyping.Replacement
import OpenApiModels.Proofs.Retyping.Applying
import OpenApiModels.Proofs.Retyping.ImportLine
import OpenApiModels.Proofs.ModelFile.DeclaredNames
import OpenApiModels.Proofs.Retyping.Settling
import OpenApiModels.Proofs.Retyping.KeptNames
import OpenApiModels.Proofs.Retyping.Tracing
import OpenApiModels.Proofs.ModelFile.Emitted
import OpenApiModels.Proofs.ModelFile.Header
import OpenApiModels.Proofs.ModelFile.References
import OpenApiModels.Proofs.Retyping.IdleFile
import OpenApiModels.Proofs.Retyping.ImportAgreement
import OpenApiModels.Proofs.Regeneration
import OpenApiModels.Proofs.ModelFile.Dialects
import OpenApiModels.Proofs.ModelFile.FileList
import OpenApiModels.Proofs.Schema.Induction
import OpenApiModels.Proofs.TypeScript.WholeTexts
import OpenApiModels.Proofs.ModelFile.Comments
import OpenApiModels.Proofs.ModelFile.WholeFiles
import OpenApiModels.Proofs.Spec.RootOrder
import OpenApiModels.Proofs.Spec.CanonicalContent
import OpenApiModels.Proofs.Spec.StoredMembers
import OpenApiModels.Proofs.ModelFile.EnumValues
import OpenApiModels.Proofs.TypeScript.SchemaReading
import OpenApiModels.Proofs.Retyping.Spans
import OpenApiModels.Proofs.SupportedVersions
import OpenApiModels.Proofs.TypeScript.Alternatives
import OpenApiModels.Proofs.ModelFile.CalmFiles
import OpenApiModels.Proofs.ModelFile.Identifiers
import OpenApiModels.Proofs.ModelFile.MemberNames
import OpenApiModels.Proofs.ModelFile.WrittenReferences
import OpenApiModels.Proofs.Retyping.KeptTokens
import OpenApiModels.Proofs.Retyping.NewNames
import OpenApiModels.Proofs.Retyping.WriteReport
import OpenApiModels.Proofs.Retyping.BrandedSupport
import OpenApiModels.Proofs.Spec.StrippedText
import OpenApiModels.Proofs.Spec.Verification
import OpenApiModels.Proofs.Selection
import OpenApiModels.Proofs.CommandLine.FailedGeneration
import OpenApiModels.Proofs.Spec.WrittenAgain
import OpenApiModels.Proofs.TypeScript.Tiling
import OpenApiModels.Proofs.TypeScript.RenamedTokens
import OpenApiModels.Proofs.Retyping.UnionTokens
import OpenApiModels.Proofs.Offsets.Retyping
import OpenApiModels.Proofs.ModelFile.BrandedImport
import OpenApiModels.Proofs.ModelFile.UnionValues
import OpenApiModels.Proofs.ModelFile.KeptKeys
