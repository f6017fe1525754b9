import SymbolTable.Fault
import SymbolTable.Span
import SymbolTable.Ty
import SymbolTable.Diagnostic.Basic
import SymbolTable.Table
import SymbolTable.Entry.Basic
import SymbolTable.Entry.Binding
import SymbolTable.Entry.Path
import SymbolTable.Entry.Render
import SymbolTable.Class.Inheritance
import SymbolTable.Class.Layout
import SymbolTable.Config.Compact
import SymbolTable.Config.Reader
import SymbolTable.Session.Run
import SymbolTable.Proofs.Table
import SymbolTable.Proofs.Rendering
import SymbolTable.Proofs.Operation
import SymbolTable.Proofs.WellFormed
import SymbolTable.Proofs.Permanence
import SymbolTable.Proofs.Path
import SymbolTable.Proofs.Registry
import SymbolTable.Proofs.Cursor.Plain
import SymbolTable.Proofs.Cursor.Effect
import SymbolTable.Proofs.Cursor.Traversal
import SymbolTable.Proofs.Inheritance.Trail
import SymbolTable.Proofs.Inheritance.Classification
import SymbolTable.Proofs.Inheritance.Growth
import SymbolTable.Proofs.Inheritance.Alike
import SymbolTable.Proofs.Inheritance.Order
import SymbolTable.Proofs.Inheritance.Maximal
import SymbolTable.Proofs.Inheritance.Aliased
import SymbolTable.Proofs.Template
import SymbolTable.Proofs.Refusal
import SymbolTable.Proofs.FirstWins
import SymbolTable.Proofs.Refused
import SymbolTable.Proofs.Parameters
import SymbolTable.Proofs.Nested
import SymbolTable.Proofs.Layout.Skeleton
import SymbolTable.Proofs.Layout.Opening
import SymbolTable.Proofs.Layout.Faithful
import SymbolTable.Proofs.Layout.Indent
import SymbolTable.Proofs.Config.Quoted
import SymbolTable.Proofs.Config.Numeral
import SymbolTable.Proofs.Config.RoundTrip
import SymbolTable.Proofs.Layout.Composition
import SymbolTable.Proofs.Session.Call
import SymbolTable.Proofs.Session.Account
import SymbolTable.Proofs.Config.Truncation
import SymbolTable.Proofs.Reasons
import SymbolTable.Proofs.Registration
import SymbolTable.Proofs.Config.Members
import SymbolTable.Proofs.Config.Spelling
import SymbolTable.Proofs.Sorting
import SymbolTable.Proofs.TypeText
import SymbolTable.Proofs.Substitution
