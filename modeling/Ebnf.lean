import Ebnf.Main
import Ebnf.Proofs.Grammar.Brackets
import Ebnf.Proofs.Grammar.References
import Ebnf.Proofs.Match.Applications
import Ebnf.Proofs.Match.Simulation
import Ebnf.Proofs.Definition.Unfolding
import Ebnf.Proofs.Match.Termination
import Ebnf.Proofs.Match.Derivation
import Ebnf.Proofs.Layout
import Ebnf.Proofs.StatementOrder
import Ebnf.Proofs.Match.Extension
import Ebnf.Proofs.Grammar.Sessions
import Ebnf.Proofs.Match.Lookup
import Ebnf.Proofs.Definition.Faults
import Ebnf.Proofs.Source.Cutting
import Ebnf.Proofs.Stages
import Ebnf.Proofs.Definition.Literals
import Ebnf.Proofs.Naming
import Ebnf.Proofs.Grammar.Forest
import Ebnf.Proofs.NodeTypes
import Ebnf.Proofs.StatementAtFault
import Ebnf.Proofs.Description
import Ebnf.Proofs.Match.LeftRecursion
import Ebnf.Proofs.Match.Levels
import Ebnf.Proofs.CommandLine.Running
import Ebnf.Proofs.Match.Rewriting
import Ebnf.Proofs.Match.Positional
import Ebnf.Proofs.Grammar.TornStatements
import Ebnf.Proofs.Definition.Splits
import Ebnf.Proofs.Source.Statements
import Ebnf.Proofs.Grammar.Unresolved
import Ebnf.Proofs.Source.Comments
import Ebnf.Proofs.Description.Tokens
import Ebnf.Proofs.Match.Pretty
import Ebnf.Proofs.Sources
import Ebnf.Proofs.Source.Blanks
import Ebnf.Proofs.Grammar.NameSearch
import Ebnf.Proofs.Match.Preorder
import Ebnf.Proofs.Source.Passes
import Ebnf.Proofs.Source.Agreement
