import RuleBody.Node
import RuleBody.Parse.Fragment
import RuleBody.Number.Read
import RuleBody.Number.Shortest
import RuleBody.Visitor.Print
import RuleBody.Loop.Drive
import RuleBody.Visitor.Script
import RuleBody.Heuristic.Manager
import RuleBody.Check.Shape
import RuleBody.Check.Lines
import RuleBody.Pipeline
import RuleBody.Check
import RuleBody.Main
import RuleBody.Proofs.Lexeme
import RuleBody.Proofs.Reading
import RuleBody.Proofs.Layout
import RuleBody.Proofs.Words
import RuleBody.Proofs.Replay
import RuleBody.Proofs.RoundTrip
import RuleBody.Proofs.Notes
import RuleBody.Proofs.Walk
import RuleBody.Proofs.Analysis
import RuleBody.Proofs.BottomUp
import RuleBody.Proofs.Rewritten
import RuleBody.Proofs.SecondRun
import RuleBody.Proofs.Verdict
import RuleBody.Proofs.Counted
import RuleBody.Proofs.Meaning
import RuleBody.Proofs.UnrollMeaning
import RuleBody.Proofs.Looking
import RuleBody.Proofs.Memory
import RuleBody.Proofs.SideBySide
import RuleBody.Proofs.Halted
import RuleBody.Proofs.Brackets
import RuleBody.Proofs.Splicing
import RuleBody.Proofs.Moves
import RuleBody.Proofs.Cursor
import RuleBody.Proofs.Descent
import RuleBody.Proofs.Faultless
import RuleBody.Proofs.Tokens
import RuleBody.Proofs.Tidy
import RuleBody.Proofs.Judgement
import RuleBody.Proofs.Parts
import RuleBody.Proofs.Glued
import RuleBody.Proofs.Links
import RuleBody.Proofs.Orderly
import RuleBody.Proofs.ReadAgain
import RuleBody.Proofs.Flags
import RuleBody.Proofs.Shifts
import RuleBody.Proofs.Comparisons
import RuleBody.Proofs.EarlyExit
import RuleBody.Proofs.Rightmost
import RuleBody.Proofs.Census
import RuleBody.Proofs.Traversal
import RuleBody.Proofs.Writes
import RuleBody.Proofs.Acceptance
import RuleBody.Proofs.Joined
import RuleBody.Proofs.Containment
