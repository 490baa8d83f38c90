import Eligibility.CommandLine
import Eligibility.CommandLine.Argument
import Eligibility.CommandLine.Help
import Eligibility.CommandLine.Request
import Eligibility.Complexity
import Eligibility.Complexity.Measure
import Eligibility.Conflict
import Eligibility.Conflict.Candidate
import Eligibility.Conflict.Cycle
import Eligibility.Conflict.Detection
import Eligibility.Conflict.Impossibility
import Eligibility.Conflict.Resolver
import Eligibility.Conflict.Scope
import Eligibility.Conflict.Workers
import Eligibility.Constraint
import Eligibility.Digest.Sha256
import Eligibility.Event
import Eligibility.Fault
import Eligibility.Interval
import Eligibility.Json
import Eligibility.Json.Mapping
import Eligibility.Json.Nesting
import Eligibility.Json.Printer
import Eligibility.Json.Reader
import Eligibility.Main
import Eligibility.Name
import Eligibility.Name.Entries
import Eligibility.Name.Grouping
import Eligibility.Number
import Eligibility.Number.Decimal
import Eligibility.Number.Integer
import Eligibility.Number.Reading
import Eligibility.Number.Rounding
import Eligibility.Operand
import Eligibility.Operator
import Eligibility.PolicyGraph
import Eligibility.PolicyGraph.Compilation
import Eligibility.PolicyGraph.Composition
import Eligibility.PolicyGraph.Literal
import Eligibility.PolicyGraph.Multigraph
import Eligibility.PolicyGraph.Node
import Eligibility.PolicyGraph.Path
import Eligibility.PolicyGraph.Record
import Eligibility.PolicyGraph.Source
import Eligibility.Report
import Eligibility.Rule
import Eligibility.Rule.Nesting
import Eligibility.Rule.Parser
import Eligibility.Rule.Printer
import Eligibility.Rule.Record
import Eligibility.Rule.Token
import Eligibility.RuleSet
import Eligibility.RuleSet.Validation
import Eligibility.Schema
import Eligibility.Settings
import Eligibility.Settings.Environment
import Eligibility.Settings.VariableFile
import Eligibility.Settings.Variables
import Eligibility.Sorting
import Eligibility.Text.Blank
import Eligibility.Text.Digit
import Eligibility.Text.LetterCase
import Eligibility.Text.LineEnd
import Eligibility.Text.Printable
import Eligibility.Text.Quoted
import Eligibility.Text.Shown
import Eligibility.TextSet
import Eligibility.Verdict
import Eligibility.Verdict.Consistency
import Eligibility.Verdict.Evaluation
import Eligibility.Verdict.Outcome
import Eligibility.Verdict.Simulation
import Eligibility.Proofs.Attempt
import Eligibility.Proofs.Lookup
import Eligibility.Proofs.Acceptance
import Eligibility.Proofs.Layout
import Eligibility.Proofs.Drawing
import Eligibility.Proofs.CompiledGraph
import Eligibility.Proofs.Meaning
import Eligibility.Proofs.Refinement
import Eligibility.Proofs.RequirementChains
import Eligibility.Proofs.GraphConditions
import Eligibility.Proofs.Composition
import Eligibility.Proofs.ComposedTrees
import Eligibility.Proofs.Verdicts
import Eligibility.Proofs.Literals
import Eligibility.Proofs.Commitments
import Eligibility.Proofs.Paths
import Eligibility.Proofs.Building
import Eligibility.Proofs.Legibility
import Eligibility.Proofs.Scopes
import Eligibility.Proofs.Candidates
import Eligibility.Proofs.Ranges
import Eligibility.Proofs.CycleSearch
import Eligibility.Proofs.Reporting
import Eligibility.Proofs.Dependencies
import Eligibility.Proofs.Readings
import Eligibility.Proofs.Circularities
import Eligibility.Proofs.Intervals
import Eligibility.Proofs.Satisfaction
import Eligibility.Proofs.Clashes
import Eligibility.Proofs.Contradictions
import Eligibility.Proofs.Necessity
import Eligibility.Proofs.Exclusions
import Eligibility.Proofs.Doubles
import Eligibility.Proofs.Numerals
import Eligibility.Proofs.Quoting
import Eligibility.Proofs.Lexemes
import Eligibility.Proofs.Parsing
import Eligibility.Proofs.ReadRules
import Eligibility.Proofs.RoundTrip
import Eligibility.Proofs.WellFormedness
import Eligibility.Proofs.MoreInputs
import Eligibility.Proofs.Items
import Eligibility.Proofs.Inventory
import Eligibility.Proofs.FaithfulCopies
import Eligibility.Proofs.JsonText
import Eligibility.Proofs.Records
import Eligibility.Proofs.WrittenGraphs
import Eligibility.Proofs.Origins
import Eligibility.Proofs.Passes
import Eligibility.Proofs.Identifiers
import Eligibility.Proofs.Schedules
import Eligibility.Proofs.Gists
import Eligibility.Proofs.Resemblance
import Eligibility.Proofs.Searches
import Eligibility.Proofs.TableSearches
import Eligibility.Proofs.Pairings
import Eligibility.Proofs.Thresholds
import Eligibility.Proofs.SharedCycles
import Eligibility.Proofs.Tenets
import Eligibility.Proofs.Agreement
import Eligibility.Proofs.Rearrangements
import Eligibility.Proofs.ClauseOwners
import Eligibility.Proofs.RuleOrder
import Eligibility.Proofs.CommonNodes
import Eligibility.Proofs.Unions
import Eligibility.Proofs.GraphOrder
import Eligibility.Proofs.Disclosure
import Eligibility.Proofs.Locality
import Eligibility.Proofs.Extensions
import Eligibility.Proofs.Faults
import Eligibility.Proofs.Descents
import Eligibility.Proofs.Endings
import Eligibility.Proofs.PassFaults
import Eligibility.Proofs.ProperEndings
import Eligibility.Proofs.SettledValues
import Eligibility.Proofs.LoadedGraphs
import Eligibility.Proofs.Implications
import Eligibility.Proofs.Overlaps
import Eligibility.Proofs.FlatReading
import Eligibility.Proofs.ReadTexts
import Eligibility.Proofs.Reprinting
import Eligibility.Proofs.Evaluations
import Eligibility.Proofs.ConditionValues
import Eligibility.Proofs.Traces
import Eligibility.Proofs.MissingInputs
import Eligibility.Proofs.Complements
import Eligibility.Proofs.Trails
import Eligibility.Proofs.Compatibility
import Eligibility.Proofs.NormalForms
import Eligibility.Proofs.Overflows
import Eligibility.Proofs.Spellings
import Eligibility.Proofs.Grammar
import Eligibility.Proofs.Phrases
import Eligibility.Proofs.Derivations
import Eligibility.Proofs.Interruptions
import Eligibility.Proofs.Outlines
import Eligibility.Proofs.PlainTexts
import Eligibility.Proofs.EquivalentRules
import Eligibility.Proofs.Impossibilities
import Eligibility.Proofs.SharedScopes
import Eligibility.Proofs.StepwiseComposition
import Eligibility.Proofs.Payloads
import Eligibility.Proofs.Matchings
import Eligibility.Proofs.VerdictConditions
import Eligibility.Proofs.PolicyEdges
import Eligibility.Proofs.Confidences
import Eligibility.Proofs.MatchingEvaluations
import Eligibility.Proofs.RaisedConfidences
import Eligibility.Proofs.OperandOrder
import Eligibility.Proofs.Tallies
import Eligibility.Proofs.Surveys
import Eligibility.Proofs.Measures
import Eligibility.Proofs.Roundings
import Eligibility.Proofs.AcceptedSettings
import Eligibility.Proofs.ScoreBounds
import Eligibility.Proofs.FirstFaults
import Eligibility.Proofs.Indexes
import Eligibility.Proofs.SortedRecords
import Eligibility.Proofs.CanonicalTexts
import Eligibility.Proofs.Additions
import Eligibility.Proofs.GrowingScores
import Eligibility.Proofs.Sweeps
import Eligibility.Proofs.PrintedLines
