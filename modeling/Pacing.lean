import Pacing.Audience
import Pacing.Boost
import Pacing.CampaignTag
import Pacing.Cursor
import Pacing.Cursor.Text
import Pacing.CursorRange
import Pacing.Day
import Pacing.Decimal.Extended
import Pacing.Decimal.Scaling
import Pacing.Decimal.Shortest
import Pacing.Engine
import Pacing.Json
import Pacing.Json.Decode
import Pacing.Json.Float
import Pacing.Json.Printer
import Pacing.Json.Reader
import Pacing.Json.Token
import Pacing.Memory.Log
import Pacing.Memory.Repository
import Pacing.Memory.World
import Pacing.Numeral
import Pacing.Proofs.Chronicle
import Pacing.Proofs.KeyedFolds
import Pacing.Proofs.Runs
import Pacing.Rank
import Pacing.Repository
import Pacing.Scheduler
import Pacing.Settings
import Pacing.Snapshot
import Pacing.Snapshot.File
import Pacing.Snapshot.Text
import Pacing.Source
import Pacing.Store.Affinity
import Pacing.Store.Arithmetic
import Pacing.Store.BoostTable
import Pacing.Store.Cell
import Pacing.Store.Column
import Pacing.Store.Database
import Pacing.Store.Error
import Pacing.Store.NamedRows
import Pacing.Store.Numeral
import Pacing.Store.RankingTable
import Pacing.Store.ViewReader
import Pacing.Store.ViewTable
import Pacing.Text.Blank
import Pacing.View
import Pacing.Window
import Pacing.Window.Intake
import Pacing.Window.Segment
import Pacing.Window.State
import Pacing.Window.TakeBack
import Pacing.Window.Tally
import Pacing.Proofs.IntakeSemantics
import Pacing.Proofs.CommitSemantics
import Pacing.Proofs.CursorOrder
import Pacing.Proofs.SegmentAccounts
import Pacing.Proofs.HoldingAccounts
import Pacing.Proofs.TakeBackAccounts
import Pacing.Proofs.PhaseSemantics
import Pacing.Proofs.SnapshotSemantics
import Pacing.Proofs.ChronicleAccounts
import Pacing.Proofs.Conservation
import Pacing.Proofs.SegmentSoundness
import Pacing.Proofs.TrailingWindow
import Pacing.Proofs.LateViews
import Pacing.Proofs.UprightWindows
import Pacing.Proofs.RestartTransparency
import Pacing.Proofs.AffordedTakeBacks
import Pacing.Proofs.CheckpointedWindows
import Pacing.Proofs.CommonPast
import Pacing.Proofs.ScheduleIndependence
import Pacing.Proofs.Numerals
import Pacing.Proofs.JsonTokens
import Pacing.Proofs.JsonRoundTrip
import Pacing.Proofs.SnapshotText
import Pacing.Proofs.TaskChronicle
import Pacing.Proofs.CrashRecovery
import Pacing.Proofs.CycleContract
import Pacing.Proofs.WatermarkSafety
import Pacing.Proofs.ViewRows
import Pacing.Proofs.BoostIsolation
import Pacing.Proofs.Calendar
import Pacing.Proofs.StoredViews
import Pacing.Proofs.PagedScans
import Pacing.Proofs.TabledWindows
import Pacing.Proofs.ScanReports
import Pacing.Proofs.SplitIntakes
import Pacing.Proofs.RestingWindows
import Pacing.Proofs.RepeatedCycles
import Pacing.Proofs.BatchWrites
import Pacing.Proofs.DaySelection
import Pacing.Proofs.SnapshotAdmission
import Pacing.Proofs.ShortestDecimals
import Pacing.Proofs.JsonDoubles
import Pacing.Proofs.RereadDoubles
import Pacing.Proofs.StoredRankings
import Pacing.Proofs.DoubleRounding
import Pacing.Proofs.DoubleParts
import Pacing.Proofs.DoubleArithmetic
import Pacing.Proofs.FreshCursors
import Pacing.Proofs.SingleLookups
import Pacing.Proofs.DoubleSums
import Pacing.Proofs.ListedBoosts
import Pacing.Proofs.DaysOfTimes
import Pacing.Proofs.CampaignTags
import Pacing.Proofs.CursorTexts
import Pacing.Proofs.DayKeys
import Pacing.Proofs.CommitOrders
