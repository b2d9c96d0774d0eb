import LookML.Folder
import LookML.Main
import LookML.Syntax.Edit
import LookML.Syntax.Equality
import LookML.Syntax.Paths
import LookML.Syntax.Walk
import LookML.Token.Cursor
import LookML.Trace
import LookML.Value.Path
import LookML.Proofs.Build.Arrangement
import LookML.Proofs.Build.Layouts
import LookML.Proofs.Build.Reload
import LookML.Proofs.Build.Values
import LookML.Proofs.Parser.Concatenation
import LookML.Proofs.Parser.Expressions
import LookML.Proofs.Parser.Places
import LookML.Proofs.Parser.Slices
import LookML.Proofs.Projection.Redeclaring
import LookML.Proofs.Report.Lines
import LookML.Proofs.Respelling.Escapes
import LookML.Proofs.Scan.Fronts
import LookML.Proofs.Syntax.Folding
import LookML.Proofs.Syntax.Repeats
import LookML.Proofs.Syntax.Walking
import LookML.Proofs.Value.History
import LookML.Proofs.Value.Json
import LookML.Proofs.Value.Navigation
