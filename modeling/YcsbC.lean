import YcsbC.Utils.HistogramMerge
import YcsbC.Main.OperationCount
import YcsbC.Main.FreshKeys
import YcsbC.Main.NewestKey
import YcsbC.Main.LoadThenRun
import YcsbC.Db.MapOfMaps
import YcsbC.Db.SharedAlone
import YcsbC.Db.AcknowledgedWrites
import YcsbC.Main.SequenceKeys
import YcsbC.Core.KeyLoop
import YcsbC.Db.EngineReads
import YcsbC.Main.KeptValues
import YcsbC.Main.ParseResult
import YcsbC.Core.PropertiesFile
import YcsbC.Main.StartErrors
import YcsbC.Main.StatisticsThread
import YcsbC.Db.TableFrames
import YcsbC.Foundation.OrderStatistic
import YcsbC.Foundation.Dispersion
import YcsbC.Utils.RecordedSamples
import YcsbC.Utils.Percentile
import YcsbC.Utils.HistogramMoments
import YcsbC.Utils.ReportDivisions
import YcsbC.Core.DiscreteGenerator
import YcsbC.Core.LengthGenerators
import YcsbC.Core.ZipfianCover
import YcsbC.Core.ZipfianGrowth
import YcsbC.Core.ZipfianSkew
import YcsbC.Core.LatestKeys
import YcsbC.Core.KeyOrder
import YcsbC.Core.InitGenerators
import YcsbC.Db.FailedInserts
import YcsbC.Db.RepeatedFields
import YcsbC.Db.ScanReads
import YcsbC.Db.EngineScans
import YcsbC.Main.FieldsAsked
import YcsbC.Db.LockStlRuns
import YcsbC.Db.SharedReads
import YcsbC.Db.SharedMemoryLookups
import YcsbC.Main.EngineRuns
import YcsbC.Main.BasicRuns
import YcsbC.Main.ResultTables
import YcsbC.Main.ConcurrentLoad
