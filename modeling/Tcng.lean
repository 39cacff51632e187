import Tcng.Iflib.Normalize
import Tcng.Iflib.BundleSound
import Tcng.Iflib.Not
import Tcng.Iflib.PushAction
import Tcng.Iflib.ActionSharing
import Tcng.IfExt.RulesSound
import Tcng.IfExt.OffsetGroups
import Tcng.Lib.Holes
import Tcng.IfExt.OffsetPlaces
import Tcng.Ext.OffsetLines
import Tcng.Lib.Program
import Tcng.IfU32.KeysSound
import Tcng.IfU32.Tables
import Tcng.Tree.QdiscIds
import Tcng.Tree.SelectionGred
import Tcng.Tree.LocationFound
import Tcng.IfC.Decides
import Tcng.Police
import Tcng.Shared.U128
import Tcng.Iflib.MulDivModSound
import Tcng.Iflib.ActionTree
import Tcng.FieldScope
import Tcng.FieldReduce
import Tcng.VarScope
import Tcng.Tcsim.KlinkRuns
import Tcng.TcmClsRuns
import Tcng.Iflib.PruneShortcuts
import Tcng.Agree
import Tcng.Iflib.BitTests
import Tcng.Iflib.RelAccess
import Tcng.Iflib.RelAccessSound
import Tcng.Iflib.RelEqOr
import Tcng.Iflib.RelGeneral
import Tcng.Iflib.RelMath
import Tcng.Iflib.RelToEq
import Tcng.OpChecked
import Tcng.OpMask
import Tcng.Iflib.NeToEq
import Tcng.Iflib.CommonSubexpressions
import Tcng.Lib.History
import Tcng.Buckets
import Tcng.Ext.Tccext
import Tcng.Ext.TccextRuns
import Tcng.Lib.Scan
import Tcng.Ext.Match
import Tcng.Ext.ExtractBits
import Tcng.Ext.RuleText
import Tcng.Tree.SortClasses
import Tcng.Qdiscs.Gred
import Tcng.Qdiscs.Dsmark
import Tcng.Tcsim.Jiffies
import Tcng.Qdiscs.Prio
import Tcng.Qdiscs.Cbq
import Tcng.Lib.ByteOrder
import Tcng.Tcsim.HexString
import Tcng.Lib.Strtol
import Tcng.Sprintf
import Tcng.SprintfSound
import Tcng.Lib.Fuel
import Tcng.Lib.Diagram
import Tcng.Iflib.FastBit
import Tcng.Iflib.FastBitSort
import Tcng.Iflib.FastBitSortDag
import Tcng.Iflib.FastBitDag
import Tcng.Iflib.FastBitDagSound
import Tcng.Ext.ActionsRead
import Tcng.Ext.MatchRun
import Tcng.IfExt.RulesEval
import Tcng.IfExt.RuleActions
import Tcng.Ext.MatchRunSound
import Tcng.Iflib.Offset
import Tcng.Iflib.OffsetSound
import Tcng.Lib.RuleTables
import Tcng.IfU32.Classify
import Tcng.IfU32.ClassifySound
