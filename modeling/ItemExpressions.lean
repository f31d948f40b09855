import ItemExpressions.Request
import ItemExpressions.Item
import ItemExpressions.Proofs.Descent
import ItemExpressions.Proofs.Reachability
import ItemExpressions.Proofs.Latch
import ItemExpressions.Proofs.Traversal
import ItemExpressions.Proofs.UpdateAccounting
import ItemExpressions.Proofs.BuildOutcome
import ItemExpressions.Proofs.InertPhrases
import ItemExpressions.Proofs.Resolution
import ItemExpressions.Proofs.Mentions
import ItemExpressions.Proofs.Numbering
import ItemExpressions.Proofs.Reader
import ItemExpressions.Proofs.OperandReader
import ItemExpressions.Proofs.ConditionReader
import ItemExpressions.Proofs.UniqueReadability
import ItemExpressions.Proofs.Frame
import ItemExpressions.Proofs.ConditionGathering
import ItemExpressions.Proofs.ProjectionGathering
import ItemExpressions.Proofs.Faults
import ItemExpressions.Proofs.KeyConditionGathering
import ItemExpressions.Proofs.Addresses
import ItemExpressions.Proofs.Disjointness
import ItemExpressions.Proofs.ItemOutcome
import ItemExpressions.Proofs.Freezing
import ItemExpressions.Proofs.Independence
import ItemExpressions.Proofs.Rearrangement
import ItemExpressions.Proofs.RenderedRoutes
import ItemExpressions.Proofs.Overlay
import ItemExpressions.Proofs.RequestClosure
import ItemExpressions.Proofs.PathTexts
import ItemExpressions.Proofs.WrittenParts
import ItemExpressions.Proofs.ProjectedKeys
import ItemExpressions.Proofs.PathReading
import ItemExpressions.Proofs.PathVerdicts
import ItemExpressions.Proofs.DraftVerdicts
import ItemExpressions.Proofs.UpdateClauses
import ItemExpressions.Proofs.TableGrowth
import ItemExpressions.Proofs.UpdateRefusals
import ItemExpressions.Proofs.ListElements
import ItemExpressions.Proofs.SumGrouping
