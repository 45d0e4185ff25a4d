import GokuStudio.Apue.Db.Failure
import GokuStudio.Apue.Db.Serial
import GokuStudio.Apue.FdPass
import GokuStudio.Apue.Ipp.Queue
import GokuStudio.Apue.Ipp.Spool
import GokuStudio.Apue.Ipp.Workers
import GokuStudio.Apue.Semaph.Runs
import GokuStudio.Apue.Threads.FooTable
import GokuStudio.Apue.Threads.RwLock
import GokuStudio.Game2048.Ended
import GokuStudio.Nginx.Base64
import GokuStudio.Nginx.EscapeUri
import GokuStudio.Nginx.Event.TimerRuns
import GokuStudio.Nginx.Hash.TableBuilt
import GokuStudio.Nginx.Http.ChunkedFilter
import GokuStudio.Nginx.Http.DiscardBody
import GokuStudio.Nginx.Http.FileCache
import GokuStudio.Nginx.Http.Geo
import GokuStudio.Nginx.Http.LimitConnRuns
import GokuStudio.Nginx.Http.LimitReqKeys
import GokuStudio.Nginx.Http.LocationSearch
import GokuStudio.Nginx.Http.Normalise
import GokuStudio.Nginx.Http.RangeBody
import GokuStudio.Nginx.Http.RangeParse
import GokuStudio.Nginx.Numbers
import GokuStudio.Nginx.RadixTreeRuns
import GokuStudio.Nginx.Resolver.Copy
import GokuStudio.Nginx.Shmtx
import GokuStudio.Nginx.Upstream.Chash
import GokuStudio.Nginx.Upstream.Memcached
import GokuStudio.Nginx.Upstream.ProxyBody
import GokuStudio.Nginx.Upstream.RoundRobin
import GokuStudio.WebServer.ListRules
import GokuStudio.WebServer.Poll
import GokuStudio.WebServer.Segments
import GokuStudio.WebServer.Select
import GokuStudio.WebServer.SendBuf
import GokuStudio.WebServer.SourceTree
