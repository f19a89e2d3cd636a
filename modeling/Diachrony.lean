import Diachrony.Main
import Diachrony.Journal.Log
import Diachrony.Journal.Scope
import Diachrony.Proofs.Merger
import Diachrony.Proofs.Soundness
import Diachrony.Proofs.Lineage
import Diachrony.Proofs.Runs
import Diachrony.Proofs.Nesting
import Diachrony.Proofs.FreeText
import Diachrony.Proofs.Substitution
import Diachrony.Proofs.Resolution
import Diachrony.Proofs.Preparation
import Diachrony.Proofs.OptionalGroups
import Diachrony.Proofs.SyntaxFree
import Diachrony.Proofs.SpacedWords
import Diachrony.Proofs.WrittenRule
import Diachrony.Proofs.Computation
import Diachrony.Proofs.RespacedVariables
import Diachrony.Proofs.RespacedStatements
import Diachrony.Proofs.Stages
import Diachrony.Proofs.Diagnostics
import Diachrony.Proofs.Independence
import Diachrony.Proofs.RespacedText
import Diachrony.Proofs.SectionedInventory
import Diachrony.Proofs.Sweep
import Diachrony.Proofs.Survival
import Diachrony.Proofs.Batches
import Diachrony.Proofs.Commuting
import Diachrony.Proofs.Tracing
import Diachrony.Proofs.LongestMatch
import Diachrony.Proofs.DeclarationOrder
import Diachrony.Proofs.ReferenceCycles
import Diachrony.Proofs.FullSubstitution
import Diachrony.Proofs.ClassPairing
import Diachrony.Proofs.ContextGrammar
import Diachrony.Proofs.ContextMeaning
import Diachrony.Proofs.ClassReaders
import Diachrony.Proofs.Complements
import Diachrony.Proofs.ContextMarks
import Diachrony.Proofs.KeylessReversal
import Diachrony.Proofs.RenderedItems
import Diachrony.Proofs.SuggestedInventories
import Diachrony.Proofs.Slots
import Diachrony.Proofs.PatternLanguage
import Diachrony.Proofs.WellFormedInventory
import Diachrony.Proofs.RecentEvents
import Diachrony.Proofs.TableHistory
import Diachrony.Proofs.GroupEnumeration
import Diachrony.Proofs.FailFast
import Diachrony.Proofs.SublistWalk
import Diachrony.Proofs.RunwiseSubstitution
import Diachrony.Proofs.BracketPairs
import Diachrony.Proofs.MirroredContexts
import Diachrony.Proofs.PassEnds
import Diachrony.Proofs.Interleaving
import Diachrony.Proofs.Odometer
