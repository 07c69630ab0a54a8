import DottedKeys.Main
import DottedKeys.Proofs.Generate.Accepted
import DottedKeys.Proofs.Properties.Document
import DottedKeys.Proofs.Source.Members
import DottedKeys.Proofs.Generate.Untouched
import DottedKeys.Proofs.Generate.Opened
import DottedKeys.Proofs.Key.Order
import DottedKeys.Proofs.Group.History
import DottedKeys.Proofs.Source.Merged
import DottedKeys.Proofs.Source.Recovery
import DottedKeys.Proofs.Group.Sorted
import DottedKeys.Proofs.Properties.Decoding
import DottedKeys.Proofs.Properties.Lexeme
import DottedKeys.Proofs.Generate.Loaded
import DottedKeys.Proofs.Properties.Seam
import DottedKeys.Proofs.Properties.Dangling
import DottedKeys.Proofs.Properties.Folding
import DottedKeys.Proofs.Properties.Hollow
import DottedKeys.Proofs.Properties.UnitEscape
import DottedKeys.Proofs.Package.EntryPath
import DottedKeys.Proofs.Generate.Again
import DottedKeys.Proofs.Stream.Portions
import DottedKeys.Proofs.Source.TreeLines
import DottedKeys.Proofs.Properties.Unescaped
