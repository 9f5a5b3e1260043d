import Codemod.Release12.Stages
import Codemod.Migration.Engine
import Codemod.Patch.Diff
import Codemod.Project.Manifest
import Codemod.Settings.Check
import Codemod.Settings.Environment
import Codemod.Settings.File
import Codemod.Settings.Basic
import Codemod.Settings.Starter
import Codemod.Digest.Sha256
import Codemod.Workspace.Disk
import Codemod.Run.Runner
import Codemod.Settings.Load
import Codemod.Report.Render
import Codemod.Command.Update
import Codemod.Migration.Script
import Codemod.Log.Render
import Codemod.Text.CommaList
import Codemod.Command.Flag
import Codemod.Command.Lookup
import Codemod.Command.Session
import Codemod.Command.Execute
import Codemod.Main
import Codemod.Proofs.Migration.Independence
import Codemod.Proofs.Edit.Merge
import Codemod.Proofs.Markup.Nesting
import Codemod.Proofs.Markup.Spans
import Codemod.Proofs.Release12.Reparse
import Codemod.Proofs.Migration.Replay
import Codemod.Proofs.Edit.InPlace
import Codemod.Proofs.Migration.Interference
import Codemod.Proofs.Migration.Idle
import Codemod.Proofs.Release12.Rerun
import Codemod.Proofs.Markup.Every
import Codemod.Proofs.Markup.Growth
import Codemod.Proofs.Text.Trim
import Codemod.Proofs.Release12.Done
import Codemod.Proofs.Release12.Lasting
import Codemod.Proofs.Release12.Warning
import Codemod.Proofs.Release12.TabSteps
import Codemod.Proofs.Release12.PickerStep
import Codemod.Proofs.Markup.Outline
import Codemod.Proofs.Release12.HeaderFamily
import Codemod.Proofs.Patch.Compare
import Codemod.Proofs.Patch.Hunks
import Codemod.Proofs.Patch.Correct
import Codemod.Proofs.Edit.Atomic
import Codemod.Proofs.Files.Walk
import Codemod.Proofs.Files.Filled
import Codemod.Proofs.Files.Replace
import Codemod.Proofs.Files.Backup
import Codemod.Proofs.Workspace.Calls
import Codemod.Proofs.Workspace.FirstBackup
import Codemod.Proofs.Workspace.DryRun
import Codemod.Proofs.Migration.Asked
import Codemod.Proofs.Migration.Cancellation
import Codemod.Proofs.Run.GivenUp
import Codemod.Proofs.Files.Spelling
import Codemod.Proofs.Files.Plain
import Codemod.Proofs.Workspace.Undo
import Codemod.Proofs.Run.Discovered
import Codemod.Proofs.Run.Distinct
import Codemod.Proofs.Run.Restored
import Codemod.Proofs.Release12.Slices
import Codemod.Proofs.Release12.Retag
import Codemod.Proofs.Release12.Flagged
import Codemod.Proofs.Release12.Matches
import Codemod.Proofs.Settings.Layers
import Codemod.Proofs.Version.Order
import Codemod.Proofs.Migration.Registered
import Codemod.Proofs.Workspace.Outside
import Codemod.Proofs.Run.Totals
import Codemod.Proofs.Run.UpToDate
import Codemod.Proofs.Release12.Renamed
import Codemod.Proofs.Release12.ImportRewrite
import Codemod.Proofs.Release12.RowType
import Codemod.Proofs.Markup.OmittedEnd
import Codemod.Proofs.Markup.Rescan
import Codemod.Proofs.Edit.Overlap
import Codemod.Proofs.Run.Union
import Codemod.Proofs.Run.Endless
import Codemod.Proofs.Settings.Extensions
import Codemod.Proofs.Settings.Endings
import Codemod.Proofs.Markup.Outermost
import Codemod.Proofs.Project.Requirement
import Codemod.Proofs.Pattern.DoubleStar
import Codemod.Proofs.Report.Shown
import Codemod.Proofs.Markup.Position
