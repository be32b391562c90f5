import LocaleText.Main
import LocaleText.Proofs.Grammar.Token
import LocaleText.Proofs.Reading.Terminal
import LocaleText.Proofs.Grammar.Basic
import LocaleText.Proofs.Reading.Expr
import LocaleText.Proofs.Grammar.Front
import LocaleText.Proofs.Reading.Exact
import LocaleText.Proofs.Reading.Operation
import LocaleText.Proofs.Reading.Entry
import LocaleText.Proofs.Tiling
import LocaleText.Proofs.Reading.Limit
import LocaleText.Proofs.Layout.Reading
import LocaleText.Proofs.Shift
import LocaleText.Proofs.Carry.Basic
import LocaleText.Proofs.Carry.Token
import LocaleText.Proofs.Carry.Expr
import LocaleText.Proofs.Carry.Entry
import LocaleText.Proofs.Locality
import LocaleText.Proofs.Concatenation
import LocaleText.Proofs.Carry.Longer
import LocaleText.Proofs.Completion.Basic
import LocaleText.Proofs.Completion.Entry
import LocaleText.Proofs.Truncation.Basic
import LocaleText.Proofs.Truncation.Expr
import LocaleText.Proofs.Truncation.Operation
import LocaleText.Proofs.Viability
import LocaleText.Proofs.Truncation.Entry
import LocaleText.Proofs.Beginning
import LocaleText.Proofs.Grammar.Keyed
import LocaleText.Proofs.Node.Basic
import LocaleText.Proofs.Isolation
import LocaleText.Proofs.Layout.WellFormed
import LocaleText.Proofs.Node.Order
import LocaleText.Proofs.Nesting.Limit
import LocaleText.Proofs.Nesting.Height
import LocaleText.Proofs.Writing.Basic
import LocaleText.Proofs.Writing.Json
import LocaleText.Proofs.Writing.Document
import LocaleText.Proofs.Writing.Outline
import LocaleText.Proofs.Spacing.Basic
import LocaleText.Proofs.Spacing.Expr
import LocaleText.Proofs.Spacing.Entry
import LocaleText.Proofs.CommandLine.Check
import LocaleText.Proofs.Pointing.Reading
import LocaleText.Proofs.Excerpt.Location
import LocaleText.Proofs.Unfinished.Blame
import LocaleText.Proofs.Place
import LocaleText.Proofs.Reading.Escape
import LocaleText.Proofs.Members.Default
import LocaleText.Proofs.Members.Comma
import LocaleText.Proofs.Integer
import LocaleText.Proofs.Pointing.Callout
import LocaleText.Proofs.Progress.Ending
