import DefUse.Main
import DefUse.Settings.Directory
import DefUse.Proofs.Analysis
import DefUse.Proofs.Diagram.Summary
import DefUse.Proofs.Graph.Label
import DefUse.Proofs.Graph.Operation
import DefUse.Proofs.Names.Apart
import DefUse.Proofs.Names.Walk
import DefUse.Proofs.Run.Simulation
import DefUse.Proofs.Dependency.Coverage
import DefUse.Proofs.Effect.Origin
import DefUse.Proofs.Tree.Nesting
import DefUse.Proofs.Tree.Broken
import DefUse.Proofs.Diagram.Depends
import DefUse.Proofs.Dependency.Tracking
import DefUse.Proofs.Dependency.Straight
import DefUse.Proofs.Names.Grammar
import DefUse.Proofs.Dependency.Agreement
import DefUse.Proofs.Dependency.Visibility
import DefUse.Proofs.Dependency.Convergence
import DefUse.Proofs.Names.Mention
import DefUse.Proofs.Comment.Analysis
import DefUse.Proofs.Graph.Idempotent
import DefUse.Proofs.Statement.Accepted
import DefUse.Proofs.Effect.Hidden
import DefUse.Proofs.Dependency.Declarator
import DefUse.Proofs.Graph.Rejoin
import DefUse.Proofs.Diagram.Picture
import DefUse.Proofs.Diagram.Mermaid
import DefUse.Proofs.Settings.Precedence
import DefUse.Proofs.Graph.Distance
import DefUse.Proofs.Scope.Balanced
