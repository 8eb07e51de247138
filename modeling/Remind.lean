import Remind.Advance
import Remind.AnchoredTrig
import Remind.Arith
import Remind.ArithExact
import Remind.BoxLines
import Remind.BufText
import Remind.Calendar
import Remind.CalendarCells
import Remind.CalendarLaws
import Remind.CalendarRows
import Remind.CalendarRun
import Remind.CalendarTrig
import Remind.CellRows
import Remind.Clauses
import Remind.ClockText
import Remind.Coerce
import Remind.ComputeTrigger
import Remind.Constness
import Remind.DateFuncs
import Remind.Dedupe
import Remind.DoFunset
import Remind.DoRem
import Remind.DoSubst
import Remind.DoTranslate
import Remind.Duration
import Remind.DurationDays
import Remind.DynBuf
import Remind.Easter
import Remind.Escape
import Remind.EvalSteps
import Remind.Evaluate
import Remind.ExprNodes
import Remind.ExprParse
import Remind.ExprToken
import Remind.FailedInclude
import Remind.FileFrame
import Remind.FileLines
import Remind.FileRun
import Remind.Files
import Remind.FillGreedy
import Remind.FillLaw
import Remind.FillLines
import Remind.FillParagraph
import Remind.FillRun
import Remind.FillUnits
import Remind.FindToken
import Remind.Grammar
import Remind.HashTab
import Remind.HebCal
import Remind.HebNext
import Remind.Idents
import Remind.IfElse
import Remind.IfNest
import Remind.Inline
import Remind.JsonString
import Remind.LastTrig
import Remind.Lib.Asks
import Remind.Lib.Buckets
import Remind.Lib.CInt
import Remind.Lib.CString
import Remind.Lib.Chained
import Remind.Lib.DepthGuard
import Remind.Lib.Effects
import Remind.Lib.Emits
import Remind.Lib.JsonBody
import Remind.Lib.Lockstep
import Remind.Lib.Loop
import Remind.Lib.NodePool
import Remind.Lib.PrefixSearch
import Remind.Lib.Progression
import Remind.Lib.Scan
import Remind.Lib.SortedArray
import Remind.Lib.StableInsert
import Remind.Lib.Trace
import Remind.Lib.Wp
import Remind.Lib.Wrap
import Remind.Lib.Yields
import Remind.LinkedTable
import Remind.Literal
import Remind.LiteralExact
import Remind.LocalVars
import Remind.MultiTrig
import Remind.NextDate
import Remind.NoDate
import Remind.NodeAccounts
import Remind.NodeRules
import Remind.Omit
import Remind.OmitLimit
import Remind.OmitQueries
import Remind.OmitStore
import Remind.Opening
import Remind.Ownership
import Remind.ParseLevel
import Remind.ParseNodes
import Remind.ParsePtr
import Remind.ParseRem
import Remind.PushFuncs
import Remind.PushVars
import Remind.Queue
import Remind.QueueRun
import Remind.ReadSteps
import Remind.RunGuard
import Remind.SameZone
import Remind.Satisfy
import Remind.Search
import Remind.SearchLeast
import Remind.SearchRepeat
import Remind.SearchScan
import Remind.SearchSound
import Remind.SearchSpec
import Remind.SimpleTrig
import Remind.Slide
import Remind.SortBuf
import Remind.StringFuncs
import Remind.StringLit
import Remind.StringPairs
import Remind.SubstOverrides
import Remind.SubstPieces
import Remind.Todo
import Remind.Token
import Remind.TokenSearch
import Remind.Translate
import Remind.TrigFuncs
import Remind.TrigInfo
import Remind.Trigger
import Remind.TriggerText
import Remind.UserFns
import Remind.Vars
import Remind.Warn
import Remind.WeekNo
