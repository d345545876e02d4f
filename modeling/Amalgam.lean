import Amalgam.FileSystem.Make
import Amalgam.Main
import Amalgam.Proofs.Selection.Chains
import Amalgam.Proofs.Selection.Errors
import Amalgam.Proofs.Selection.Prologue
import Amalgam.Proofs.Selection.Strictness
import Amalgam.Selection.Stream
import Amalgam.Proofs.Selection.Brackets
import Amalgam.Proofs.Selection.Repair
import Amalgam.Proofs.Selection.Output
import Amalgam.Proofs.Selection.Protocol
import Amalgam.Proofs.Document
import Amalgam.Proofs.FileSystem.Access
import Amalgam.Proofs.Join.Sources
import Amalgam.Proofs.Join.Documents
import Amalgam.Proofs.FileSystem.Names
import Amalgam.Proofs.FileSystem.Search
import Amalgam.Proofs.Join.Runs
import Amalgam.Proofs.Directive
import Amalgam.Proofs.Text.Endings
import Amalgam.Proofs.FileSystem.Trees
import Amalgam.Proofs.Program
import Amalgam.Proofs.Text.Bytes
import Amalgam.Proofs.FileSystem.Sources
import Amalgam.Proofs.Symbols
import Amalgam.Proofs.CommandLine
import Amalgam.Proofs.Join.Concatenation
import Amalgam.Proofs.Extensions
import Amalgam.Proofs.Join.Warnings
