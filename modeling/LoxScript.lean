import LoxScript.Main
import LoxScript.Scope.Forest
import LoxScript.Proofs.Command.Chain
import LoxScript.Proofs.Command.Exit
import LoxScript.Proofs.Grammar.Acceptance
import LoxScript.Proofs.Grammar.Descent
import LoxScript.Proofs.Grammar.EndMark
import LoxScript.Proofs.Grammar.Legibility
import LoxScript.Proofs.Grammar.Placement
import LoxScript.Proofs.Grammar.Precedence
import LoxScript.Proofs.Grammar.Recovery
import LoxScript.Proofs.Grammar.Requests
import LoxScript.Proofs.Lexeme.Account
import LoxScript.Proofs.Lexeme.Composition
import LoxScript.Proofs.Lexeme.Spacing
import LoxScript.Proofs.Machine.ForLoop
import LoxScript.Proofs.Prompt.Accounting
import LoxScript.Proofs.Prompt.Typing
import LoxScript.Proofs.Run.Incompleteness
import LoxScript.Proofs.Run.Layout
import LoxScript.Proofs.Run.Lines
import LoxScript.Proofs.Run.Outcome
import LoxScript.Proofs.Run.Overflow
import LoxScript.Proofs.Run.Parentheses
import LoxScript.Proofs.Run.Renaming
import LoxScript.Proofs.Run.Restoration
import LoxScript.Proofs.Run.Session
import LoxScript.Proofs.Run.Stray
import LoxScript.Proofs.Scoping.Containment
import LoxScript.Proofs.Scoping.History
import LoxScript.Proofs.Scoping.Resolution
