import DiceNotation.Codec.Forms
import DiceNotation.Main
import DiceNotation.Proofs.Acceptance
import DiceNotation.Proofs.Blame
import DiceNotation.Proofs.Bounds
import DiceNotation.Proofs.Codec.Forms
import DiceNotation.Proofs.Completion
import DiceNotation.Proofs.Descent.Safety
import DiceNotation.Proofs.ExactRolls
import DiceNotation.Proofs.Extremes
import DiceNotation.Proofs.Fairness
import DiceNotation.Proofs.Holes
import DiceNotation.Proofs.Interruption
import DiceNotation.Proofs.Layout
import DiceNotation.Proofs.LexedTokens
import DiceNotation.Proofs.LineAnswers
import DiceNotation.Proofs.Messages
import DiceNotation.Proofs.Nesting
import DiceNotation.Proofs.OperandErrors
import DiceNotation.Proofs.Outcomes
import DiceNotation.Proofs.Overflow
import DiceNotation.Proofs.Parentheses
import DiceNotation.Proofs.Printing
import DiceNotation.Proofs.Recovery
import DiceNotation.Proofs.Replay
import DiceNotation.Proofs.Rereading
import DiceNotation.Proofs.Sampling
import DiceNotation.Proofs.Service.Histories
import DiceNotation.Proofs.Service.InTurn
import DiceNotation.Proofs.Service.Isolation
import DiceNotation.Proofs.Service.Shutdown
import DiceNotation.Proofs.Service.TextRequests
import DiceNotation.Proofs.Service.Together
import DiceNotation.Proofs.SettingsFile
import DiceNotation.Proofs.Steps
import DiceNotation.Proofs.TextRolls
import DiceNotation.Proofs.Tightness
import DiceNotation.Proofs.Toml.DateTables
import DiceNotation.Proofs.Toml.Dates
import DiceNotation.Proofs.Toml.Documents
import DiceNotation.Proofs.Toml.Lines
import DiceNotation.Proofs.Toml.Strings
import DiceNotation.Proofs.Toml.Values
import DiceNotation.Proofs.Toml.Writable
import DiceNotation.Proofs.Traces
import DiceNotation.Proofs.Truncation
import DiceNotation.Proofs.Unambiguity
import DiceNotation.Proofs.Words
import DiceNotation.Random.Generator
