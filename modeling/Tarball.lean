import Tarball.ArgumentFile
import Tarball.Build
import Tarball.Builder.Basic
import Tarball.Builder.Import
import Tarball.Builder.Session
import Tarball.CommandLine
import Tarball.Content
import Tarball.Entry
import Tarball.Error
import Tarball.FileSystem.Arrange
import Tarball.FileSystem.Basic
import Tarball.FileSystem.Create
import Tarball.FileSystem.Open
import Tarball.FileSystem.Resolve
import Tarball.FileSystem.Walk
import Tarball.Header.Block
import Tarball.Header.Number
import Tarball.Kind
import Tarball.Main
import Tarball.Mapping
import Tarball.Metered
import Tarball.Name.Destination
import Tarball.Name.Placement
import Tarball.Name.Segment
import Tarball.Numeral
import Tarball.Proofs.Abreast
import Tarball.Proofs.Additions
import Tarball.Proofs.Alignment
import Tarball.Proofs.Alike
import Tarball.Proofs.Attempts
import Tarball.Proofs.Canonical
import Tarball.Proofs.CleanNames
import Tarball.Proofs.Closing
import Tarball.Proofs.Creation
import Tarball.Proofs.Decoding
import Tarball.Proofs.Directories
import Tarball.Proofs.Duplicates
import Tarball.Proofs.Expansion
import Tarball.Proofs.Extension
import Tarball.Proofs.Failures
import Tarball.Proofs.FirstOfName
import Tarball.Proofs.ImportEnd
import Tarball.Proofs.Imported
import Tarball.Proofs.Inputs
import Tarball.Proofs.ItemNames
import Tarball.Proofs.Lineage
import Tarball.Proofs.Lockstep
import Tarball.Proofs.Making
import Tarball.Proofs.Mentions
import Tarball.Proofs.Metadata
import Tarball.Proofs.Metering
import Tarball.Proofs.MovedArguments
import Tarball.Proofs.Moves
import Tarball.Proofs.Obstacles
import Tarball.Proofs.Output
import Tarball.Proofs.Placement
import Tarball.Proofs.PlainForm
import Tarball.Proofs.Precedence
import Tarball.Proofs.Protection
import Tarball.Proofs.ReadBack
import Tarball.Proofs.Reader
import Tarball.Proofs.References
import Tarball.Proofs.Remains
import Tarball.Proofs.Reproducible
import Tarball.Proofs.Requests
import Tarball.Proofs.RootDirectory
import Tarball.Proofs.RootMark
import Tarball.Proofs.RoundTrip
import Tarball.Proofs.SettingLines
import Tarball.Proofs.Spared
import Tarball.Proofs.SpecialFiles
import Tarball.Proofs.Spelling
import Tarball.Proofs.StrayRecords
import Tarball.Proofs.Streams
import Tarball.Proofs.TreeImport
import Tarball.Proofs.Trees
import Tarball.Proofs.Truncation
import Tarball.Proofs.Unhindered
import Tarball.Proofs.Walks
import Tarball.Proofs.Whereabouts
import Tarball.Proofs.WrittenTimes
import Tarball.Request
import Tarball.Setting.Document
import Tarball.Setting.Document.Integer
import Tarball.Setting.Document.Quotation
import Tarball.Setting.Effective
import Tarball.Setting.File
import Tarball.Setting.Mtime
import Tarball.Setting.Owner
import Tarball.Setting.Permissions
import Tarball.Sink
import Tarball.Text.Blank
import Tarball.Text.Lines
import Tarball.Text.Quoted
import Tarball.Text.Unprintable
import Tarball.Text.Utf8
