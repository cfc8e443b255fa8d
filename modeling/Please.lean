import Please.Cache.DirCache
import Please.Cmap.Await
import Please.Plz.CycleDetector
import Please.Plz.BuildTimeInputs
import Please.Build.MoveOutput
import Please.Test.TestStep
import Please.Asp.Freeze
import Please.Build.CacheTransparency
import Please.Build.SecretHash
import Please.Core.LabelRoundTrip
import Please.Asp.ListPersistence
import Please.Gc.Removal
import Please.Lsp.Formatting
import Please.Remote.InputRoot
import Please.Asp.Indexing
import Please.Asp.StatementPass
import Please.Asp.Numbers
import Please.Asp.AdjacentStrings
import Please.Asp.Equality
import Please.Query.RevdepsDepth
import Please.Asp.GetLabels
import Please.Query.Deps
import Please.Query.SomePath
import Please.Asp.LoopControl
import Please.Asp.Recorded
import Please.Core.RuntimeDependencies
import Please.Core.InputFiles
import Please.Core.ExternalDependencies
import Please.Core.Subincludes
import Please.Core.BuildEnv
import Please.Build.RuleHashOrder
import Please.Build.UnprefixedHashes
import Please.Test.XmlCoverage
import Please.Test.PreviousFailures
import Please.Test.GcovCoverage
import Please.Core.DerivedLabels
import Please.Query.Print
import Please.Generate.Gitignore
import Please.Remote.Filesystem
import Please.Core.OwningPackage
import Please.Asp.FilePosition
