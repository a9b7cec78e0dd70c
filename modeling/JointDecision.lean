import JointDecision.Document.Read
import JointDecision.Document.Write
import JointDecision.Solver
import JointDecision.Proofs.Assignment.Acceptance
import JointDecision.Proofs.Assignment.Join
import JointDecision.Proofs.Document
import JointDecision.Proofs.Elimination.Diagnostics
import JointDecision.Proofs.Elimination.Forest
import JointDecision.Proofs.Elimination.Optimality
import JointDecision.Proofs.Elimination.OutOfDomain
import JointDecision.Proofs.Elimination.Provenance
import JointDecision.Proofs.Elimination.Tags
import JointDecision.Proofs.FactorGraph.Handles
import JointDecision.Proofs.FactorGraph.Representation
import JointDecision.Proofs.JointValues
import JointDecision.Proofs.MaxPlus.Bounds
import JointDecision.Proofs.MaxPlus.Contents
import JointDecision.Proofs.MaxPlus.Exactness
import JointDecision.Proofs.MaxPlus.Rows
import JointDecision.Proofs.ProblemGraphs
import JointDecision.Proofs.Refusals
import JointDecision.Proofs.Trie.ForeignQueries
import JointDecision.Proofs.Trie.History
import JointDecision.Proofs.Trie.Narrowing
import JointDecision.Proofs.Trie.Queries
import JointDecision.Proofs.TrieMap
