import AddressPlan.BitWindow
import AddressPlan.Proofs.Layout.Clients
import AddressPlan.Proofs.Layout.Contract
import AddressPlan.Proofs.Layout.FillAfterCheck
import AddressPlan.Proofs.Layout.KeptTree
import AddressPlan.Proofs.Layout.Lineage
import AddressPlan.Proofs.Layout.OnBothStores
import AddressPlan.Proofs.Layout.Retry
import AddressPlan.Proofs.Layout.RoundTrip
import AddressPlan.Proofs.Layout.Unedited
import AddressPlan.Proofs.Layout.ValidatedFirst
import AddressPlan.Proofs.Layout.Validity
import AddressPlan.Proofs.Layout.WellFormed
import AddressPlan.Proofs.Network.Canonical
import AddressPlan.Proofs.Network.Digits
import AddressPlan.Proofs.Network.Fields
import AddressPlan.Proofs.Network.Room
import AddressPlan.Proofs.Network.Text
import AddressPlan.Proofs.Network.TopBits
import AddressPlan.Proofs.Network.WindowInWords
import AddressPlan.Proofs.NodeTree.BitLayout
import AddressPlan.Proofs.NodeTree.Budget
import AddressPlan.Proofs.NodeTree.BudgetWalk
import AddressPlan.Proofs.NodeTree.Claims
import AddressPlan.Proofs.NodeTree.Fill
import AddressPlan.Proofs.NodeTree.FillInWords
import AddressPlan.Proofs.NodeTree.FillRefusals
import AddressPlan.Proofs.NodeTree.FirstFault
import AddressPlan.Proofs.NodeTree.Fits
import AddressPlan.Proofs.NodeTree.Flagged
import AddressPlan.Proofs.NodeTree.Labels
import AddressPlan.Proofs.NodeTree.Matching
import AddressPlan.Proofs.NodeTree.Numbering
import AddressPlan.Proofs.NodeTree.Rebuild
import AddressPlan.Proofs.NodeTree.ReconciledTwice
import AddressPlan.Proofs.NodeTree.Retained
import AddressPlan.Proofs.NodeTree.Search
import AddressPlan.Proofs.NodeTree.Uniform
import AddressPlan.Proofs.NodeTree.WrittenIds
import AddressPlan.Proofs.NodeTree.WrittenTwice
import AddressPlan.Proofs.Report.ArenaShape
import AddressPlan.Proofs.Report.Forest
import AddressPlan.Proofs.Report.Levels
import AddressPlan.Proofs.Report.Outline
import AddressPlan.Proofs.Report.Reference
import AddressPlan.Proofs.Report.Shares
import AddressPlan.Proofs.Report.WidthShares
import AddressPlan.Proofs.Service.Isolation
import AddressPlan.Proofs.Service.MissingLayouts
import AddressPlan.Proofs.Service.NodeIds
import AddressPlan.Proofs.Service.Refusals
import AddressPlan.Proofs.Service.Rounds
import AddressPlan.Proofs.Service.Runs
import AddressPlan.Proofs.Service.Sessions
import AddressPlan.Proofs.StepRuns
import AddressPlan.Proofs.Store.Filed
import AddressPlan.Proofs.Store.Parallel
import AddressPlan.Proofs.Store.SubtreeDeletion
import AddressPlan.Proofs.Store.Watched
import AddressPlan.Proofs.Words
import AddressPlan.Settings
import AddressPlan.Store.Connection
import AddressPlan.Store.Recording
