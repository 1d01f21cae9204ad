import ClassAudit.Audit.Auditor
import ClassAudit.Config.File
import ClassAudit.Css.Component
import ClassAudit.Proofs.Audit.ChangingFiles
import ClassAudit.Proofs.Audit.Coherence
import ClassAudit.Proofs.Audit.History
import ClassAudit.Proofs.Audit.Leniency
import ClassAudit.Proofs.Audit.LocalNames
import ClassAudit.Proofs.Audit.Placeholders
import ClassAudit.Proofs.Audit.SingleSheet
import ClassAudit.Proofs.Config.BaseDirectory
import ClassAudit.Proofs.Config.RepeatedMarks
import ClassAudit.Proofs.Css.BraceWalk
import ClassAudit.Proofs.Css.Braces
import ClassAudit.Proofs.Css.EscapedRules
import ClassAudit.Proofs.Css.JoinedSheets
import ClassAudit.Proofs.Css.LooseNames
import ClassAudit.Proofs.Css.PlainSheet
import ClassAudit.Proofs.Css.RuleSlices
import ClassAudit.Proofs.Css.RuleTree
import ClassAudit.Proofs.Css.SelectorItems
import ClassAudit.Proofs.Css.UncommentedSheet
import ClassAudit.Proofs.Markup.StableTokens
import ClassAudit.Proofs.Markup.StyleElements
import ClassAudit.Proofs.Markup.WrittenSegments
import ClassAudit.Proofs.Pattern.Runs
import ClassAudit.Proofs.Pattern.Scans
import ClassAudit.Proofs.Project.AddedFiles
import ClassAudit.Proofs.Project.CatalogHistory
import ClassAudit.Proofs.Project.CoveringGlob
import ClassAudit.Proofs.Project.GatheredFiles
import ClassAudit.Proofs.Project.Pruning
import ClassAudit.Proofs.RecencyHistory
import ClassAudit.Proofs.Site.CertainWords
import ClassAudit.Proofs.Site.ClassExpressions
import ClassAudit.Proofs.Site.SvelteSources
import ClassAudit.Proofs.Theme.CommentedImports
import ClassAudit.Proofs.Theme.MaskedTheme
import ClassAudit.Proofs.Theme.ThemeSheet
import ClassAudit.Proofs.Utility.Derivation
import ClassAudit.Proofs.Utility.Importance
import ClassAudit.Proofs.Utility.IntegerRanges
import ClassAudit.Proofs.Utility.RawValues
import ClassAudit.Proofs.Utility.RecognizerHistory
import ClassAudit.Proofs.Utility.TableSplits
import ClassAudit.Proofs.Utility.TokenPieces
import ClassAudit.Proofs.Utility.VariantStack
import ClassAudit.Site.Decode
