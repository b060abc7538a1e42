import ZhiCache.Lib.Chain
import ZhiCache.Lib.Run
import ZhiCache.Lib.WriteLog
import ZhiCache.Lib.Regex
import ZhiCache.Lib.Congruential
import ZhiCache.Lib.Machines
import ZhiCache.Lib.Frames
import ZhiCache.Utils.Random
import ZhiCache.Utils.RandomCycle
import ZhiCache.Utils.Arena
import ZhiCache.Utils.ParamParse
import ZhiCache.Utils.Templates
import ZhiCache.Utils.QueryParams
import ZhiCache.Fiber.Mutex
import ZhiCache.Fiber.SharedMutex
import ZhiCache.Fiber.SharedRuns
import ZhiCache.Fiber.SharedProgress
import ZhiCache.Fiber.WhenAll
import ZhiCache.Fiber.WhenAllCounts
import ZhiCache.Fiber.WhenAllRuns
import ZhiCache.Model.RequestModel
import ZhiCache.Model.Json
import ZhiCache.Storage.SkipList
import ZhiCache.Storage.Threaded
import ZhiCache.Storage.Levels
import ZhiCache.Storage.InsertRuns
import ZhiCache.Storage.Heights
import ZhiCache.Storage.Searches
import ZhiCache.Storage.Interleaved
import ZhiCache.Storage.Publication
import ZhiCache.Storage.ConcurrentReaders
import ZhiCache.Storage.HashKv
import ZhiCache.Storage.HashKvRuns
import ZhiCache.Storage.LockedKv
import ZhiCache.Storage.HashTable
import ZhiCache.Storage.Zset
import ZhiCache.Storage.Ties
import ZhiCache.Storage.ConcurrentAdds
import ZhiCache.Storage.ConcurrentRange
import ZhiCache.Manager.ZsetManager
import ZhiCache.Manager.Assertions
import ZhiCache.Manager.ConcurrentCalls
import ZhiCache.Manager.LocaldbManager
import ZhiCache.Handler.KvHandler
import ZhiCache.Handler.BatchQuery
import ZhiCache.Handler.BatchFibers
import ZhiCache.Handler.ZsetHandler
import ZhiCache.Server.Service
import ZhiCache.Server.Bodies
import ZhiCache.Server.Requests
import ZhiCache.Server.Uris
import ZhiCache.Server.System
import ZhiCache.Server.Validity
import ZhiCache.Server.Restart
import ZhiCache.Server.Startup
import ZhiCache.Server.EarlyTasks
import ZhiCache.Server.Pointers
import ZhiCache.Server.Lifetime
