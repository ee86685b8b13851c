import RedisLite.ReplyFraming
import RedisLite.LazyExpiration
import RedisLite.RestartEquivalence
import RedisLite.ReplayAtomicity
import RedisLite.Completability
import RedisLite.ClientIsolation
import RedisLite.RequestSizeLimit
import RedisLite.WaitingClients
import RedisLite.HangUps
import RedisLite.ListRanges
import RedisLite.CommandArithmetic
import RedisLite.DeadlineRuns
import RedisLite.InsertRemove
import RedisLite.CollectionAccounting
import RedisLite.RecordedChanges
import RedisLite.ReplayedDeadlines
import RedisLite.ParserBounds
import RedisLite.PipelinedSessions
import RedisLite.ServerLifetimes
import RedisLite.SlowReaders
import RedisLite.CrashRecovery
import RedisLite.ServerStartup
import RedisLite.BenchmarkCommands
import RedisLite.ProgramLives
import RedisLite.LoopEnds
import RedisLite.BenchmarkSessions
import RedisLite.LeftoverEvents
