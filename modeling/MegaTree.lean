import MegaTree.Effect.Prog
import MegaTree.Effect.Wp
import MegaTree.Effect.Always
import MegaTree.Core.Basic
import MegaTree.Core.LongId
import MegaTree.Core.Generations
import MegaTree.Core.Geometry
import MegaTree.Core.Node
import MegaTree.RunningMean.Single
import MegaTree.Core.Accumulate
import MegaTree.Core.NodeFile
import MegaTree.Tree.Basic
import MegaTree.Tree.AddPoint
import MegaTree.Tree.Always
import MegaTree.Tree.Descent
import MegaTree.Tree.Query
import MegaTree.Store.Basic
import MegaTree.Store.UpTo
import MegaTree.Store.View
import MegaTree.Store.Access
import MegaTree.SpaceTree.Basic
import MegaTree.Store.Represents
import MegaTree.Store.AddPoint
import MegaTree.Store.Insert
import MegaTree.Store.FastCache
import MegaTree.Store.SameTree
import MegaTree.Store.Query
import MegaTree.RunningMean.Basic
import MegaTree.Store.Drift
import MegaTree.Store.FastRun
import MegaTree.Store.OutOfBounds
import MegaTree.Store.Depth
import MegaTree.Tree.Session
import MegaTree.Tree.Composed
import MegaTree.Store.Address
import MegaTree.Store.Shape
import MegaTree.Store.ShapeRun
import MegaTree.Cache.Basic
import MegaTree.Cache.Steps
import MegaTree.Cache.Pins
import MegaTree.Cache.Pinned
import MegaTree.Cache.Lifetime
import MegaTree.Cache.Phase
import MegaTree.Cache.Flight
import MegaTree.Cache.Sizes
import MegaTree.Cache.Maintenance
import MegaTree.Cache.Ledger
import MegaTree.Cache.Accounting
import MegaTree.Cache.Counters
import MegaTree.Cache.Pool
import MegaTree.Cache.EvictCallback
import MegaTree.Cache.Client
import MegaTree.Cache.Simulation
import MegaTree.Cache.ExistenceBits
import MegaTree.Cache.Modified
import MegaTree.Cache.Shared
import MegaTree.Cache.OneCopy
import MegaTree.Core.NodeObjects
import MegaTree.Core.Repair
import MegaTree.SpaceTree.Track
import MegaTree.Store.Accuracy
import MegaTree.Store.Layout
import MegaTree.Store.Repair
import MegaTree.Store.Equal
import MegaTree.Store.AsyncQuery
import MegaTree.Store.Settle
import MegaTree.Store.Order
import MegaTree.Store.Operations
import MegaTree.Store.EmptyRoot
import MegaTree.Cache.Transparent
import MegaTree.Storage.StreamingServer
import MegaTree.Import.PairUp
import MegaTree.Import.SortLas
import MegaTree.Storage.HbaseStorage
import MegaTree.Core.Summary
import MegaTree.Viz.VizStorage
import MegaTree.Viz.Cell
import MegaTree.Text.Decimal
import MegaTree.Text.ConfigFile
import MegaTree.Core.MetaData
import MegaTree.Web.CellObject
import MegaTree.Web.FrustumQuerier
import MegaTree.Web.Accounting
import MegaTree.Web.Objects
import MegaTree.Web.Traversal
import MegaTree.Web.Uninterrupted
import MegaTree.Web.Drawing
import MegaTree.Web.Delivery
import MegaTree.Cache.Rounds
import MegaTree.Cache.Backed
import MegaTree.Cache.Durable
import MegaTree.Store.RootFile
import MegaTree.Memory.Cursor
import MegaTree.Core.Bounds
import MegaTree.Viz.Bounds
import MegaTree.Viz.Bytesize
import MegaTree.Web.CellPath
import MegaTree.ZOrder.Halving
import MegaTree.Import.MortonKey
import MegaTree.Import.ScratchDir
import MegaTree.Doubly.ListEnds
import MegaTree.Core.LinkedList
import MegaTree.Core.BlockingQueue
import MegaTree.Web.LRUCache
import MegaTree.Clip.Volume
import MegaTree.Web.FrustumPlanes
import MegaTree.Text.Fields
import MegaTree.Server.Requests
import MegaTree.Core.FileCache
import MegaTree.Cache.Reopen
import MegaTree.Store.Frontier
import MegaTree.Cache.Answers
import MegaTree.Core.FunctionCaller
import MegaTree.Cache.DiskStorage
import MegaTree.Cache.HbaseCache
import MegaTree.Cache.HbaseFlush
import MegaTree.Cache.MappedFile
import MegaTree.Cache.Waiting
import MegaTree.Cache.NodeState
