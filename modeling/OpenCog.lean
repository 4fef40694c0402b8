import OpenCog.AtomSpace.ClassServer
import OpenCog.AtomSpace.Atom
import OpenCog.AtomSpace.AtomTable
import OpenCog.AtomSpace.TableInvariant
import OpenCog.AtomSpace.Adding
import OpenCog.AtomSpace.Extraction
import OpenCog.AtomSpace.Decay
import OpenCog.AtomSpace.TableRuns
import OpenCog.AtomSpace.Removal
import OpenCog.AtomSpace.Forgetting
import OpenCog.AtomSpace.Funds
import OpenCog.AtomSpace.DecayFunds
import OpenCog.AtomSpace.Deferred
import OpenCog.AtomSpace.NormalForm
import OpenCog.AtomSpace.HandleEntry
import OpenCog.AtomSpace.MultiTarget
import OpenCog.AtomSpace.FastPath
import OpenCog.AtomSpace.NameTarget
import OpenCog.AtomSpace.Wildcards
import OpenCog.Lib.BinarySearch
import OpenCog.Lib.SparseIndex
import OpenCog.Lib.SortedLists
import OpenCog.Time.PairRelation
import OpenCog.Time.PairRemoval
import OpenCog.Time.TemporalRuns
import OpenCog.Query.Independence
import OpenCog.Messaging.Availability
import OpenCog.Messaging.Unread
import OpenCog.Messaging.Fidelity
import OpenCog.Moses.FieldPacking
import OpenCog.Moses.Transform
import OpenCog.Moses.NeighborhoodCount
import OpenCog.Persist.RoundTrip
import OpenCog.Time.TimeAgreement
import OpenCog.Time.Removability
import OpenCog.Time.TemporalOrder
import OpenCog.Time.QueryCriteria
import OpenCog.AtomSpace.TypeHierarchy
import OpenCog.AtomSpace.TruthValue
import OpenCog.Comboreduct.SimpleReduction
import OpenCog.Comboreduct.Combo.Bindings
import OpenCog.Comboreduct.Combo.ReduceNots
import OpenCog.Comboreduct.Combo.SubtreeToEnf
import OpenCog.Comboreduct.Combo.TypeIntersection
import OpenCog.Query.PatternMatch
import OpenCog.Query.Instantiator
import OpenCog.Util.LazySelector
import OpenCog.Comboreduct.Combo.EnfMoves
import OpenCog.Comboreduct.EqualTruthTable
import OpenCog.Messaging.RouterTable
import OpenCog.Moses.ContinEncoding
import OpenCog.Moses.LocalOnto
import OpenCog.Moses.SelectExemplar
import OpenCog.Persist.TypeMap
import OpenCog.Util.LruCache
import OpenCog.Moses.KnobIndex
import OpenCog.Util.StringTokenizer
import OpenCog.AtomSpace.FilterSet
import OpenCog.AtomSpace.PredicateIndex
import OpenCog.Attention.Affordable
import OpenCog.Attention.Bookkeeping
import OpenCog.Attention.Spreading
import OpenCog.Attention.HebbianUpdating
import OpenCog.Server.ActivityRecords
import OpenCog.Moses.BitIterators
import OpenCog.Moses.MachineWords
import OpenCog.Persist.StorageRoundTrip
import OpenCog.Spatial.GridSearch
import OpenCog.Procedure.Interpretation
