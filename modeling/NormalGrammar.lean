import NormalGrammar.Accessibility
import NormalGrammar.Accessibility.Queue
import NormalGrammar.Binarization
import NormalGrammar.Demo
import NormalGrammar.Erasure
import NormalGrammar.Event
import NormalGrammar.FreshNames
import NormalGrammar.Grammar
import NormalGrammar.Grammar.Derivation
import NormalGrammar.Grammar.Marking
import NormalGrammar.Grammar.Validation
import NormalGrammar.Grammar.Words
import NormalGrammar.Isolation
import NormalGrammar.Listing
import NormalGrammar.Main
import NormalGrammar.NormalForm
import NormalGrammar.NormalForm.TableText
import NormalGrammar.NormalForm.WordTable
import NormalGrammar.Normalization
import NormalGrammar.OrderedSet
import NormalGrammar.Productivity
import NormalGrammar.Proofs.Acceptance
import NormalGrammar.Proofs.Binarization
import NormalGrammar.Proofs.Chain
import NormalGrammar.Proofs.Erasure
import NormalGrammar.Proofs.Isolation
import NormalGrammar.Proofs.Marked
import NormalGrammar.Proofs.NewNames
import NormalGrammar.Proofs.NormalForm
import NormalGrammar.Proofs.Pruning
import NormalGrammar.Proofs.Reading
import NormalGrammar.Proofs.RunLanguage
import NormalGrammar.Proofs.Shape
import NormalGrammar.Proofs.Stability
import NormalGrammar.Proofs.Trim
import NormalGrammar.Proofs.UnitPairs
import NormalGrammar.Proofs.Validity
import NormalGrammar.Proofs.WordTable
import NormalGrammar.Reader
import NormalGrammar.Reader.Misread
import NormalGrammar.Reader.Notation
import NormalGrammar.Reader.Scan
import NormalGrammar.Rule
import NormalGrammar.Run
import NormalGrammar.Saturation
import NormalGrammar.SetMap
import NormalGrammar.Stage
import NormalGrammar.Symbol
import NormalGrammar.Text.CharWidth
import NormalGrammar.Text.CodeRange
import NormalGrammar.Text.Grid
import NormalGrammar.Text.Ligature
import NormalGrammar.Text.Picture
import NormalGrammar.Text.Width
import NormalGrammar.UnitPairs
import NormalGrammar.Word
import NormalGrammar.Proofs.Outcome
import NormalGrammar.Proofs.StageSequence
import NormalGrammar.Proofs.Usefulness
import NormalGrammar.Proofs.EmptyLanguage
import NormalGrammar.Proofs.Arrangement
import NormalGrammar.Proofs.Declaration
import NormalGrammar.Proofs.WritingBack
import NormalGrammar.Proofs.ScanSymbols
import NormalGrammar.Proofs.ScanLines
import NormalGrammar.Proofs.Notation
import NormalGrammar.Proofs.Spelling
import NormalGrammar.Proofs.PrintedLines
import NormalGrammar.Proofs.Rereading
import NormalGrammar.Proofs.Renaming
import NormalGrammar.Proofs.OrderIndependence
import NormalGrammar.Proofs.Reordering
import NormalGrammar.Proofs.Rounds
import NormalGrammar.Proofs.ShortWords
import NormalGrammar.Proofs.Construction
import NormalGrammar.Proofs.PrintedResults
import NormalGrammar.NormalForm.SquareTable
import NormalGrammar.Proofs.SquareTable
import NormalGrammar.Proofs.DerivationTrees
import NormalGrammar.Proofs.UnitRemoval
import NormalGrammar.Proofs.Contraction
import NormalGrammar.Proofs.Proxies
import NormalGrammar.Proofs.UselessSymbols
import NormalGrammar.Proofs.DrawnNames
import NormalGrammar.Proofs.Idempotence
import NormalGrammar.Proofs.FirstFault
import NormalGrammar.Proofs.ListingOrder
import NormalGrammar.Proofs.PrintedBodies
import NormalGrammar.Proofs.NameHistory
import NormalGrammar.Proofs.ReadingStops
import NormalGrammar.Proofs.RoundBounds
import NormalGrammar.Proofs.BreadthFirst
import NormalGrammar.Proofs.UnitClosures
import NormalGrammar.Proofs.Expansion
import NormalGrammar.Proofs.ParserLibrary
