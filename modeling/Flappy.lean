import Flappy.RecursiveOrphans
import Flappy.Shlibs
import Flappy.Conflicts
import Flappy.Files.Conflicts
import Flappy.Files.Replaced
import Flappy.Files.Modified
import Flappy.Files.Calls
import Flappy.ConfigFiles
import Flappy.Alternatives.Unregister
import Flappy.Alternatives.Relpath
import Flappy.Fbulk.Schedule
import Flappy.Replaces
import Flappy.Replacing
import Flappy.Hold
import Flappy.Modes
import Flappy.Once
import Flappy.Passed
import Flappy.Order
import Flappy.Fetch
import Flappy.PkgdbFile
import Flappy.Scripts
import Flappy.Download
import Flappy.Examined
import Flappy.Marks
import Flappy.RepoLock
import Flappy.Rindex.Clean
import Flappy.DeptreeCalls
import Flappy.Unpack
import Flappy.VpkgConf
import Flappy.PoolHistory
import Flappy.Missing
import Flappy.Stats
import Flappy.UpdateAll
import Flappy.Chain
import Flappy.Conf.File
import Flappy.Paths.Rel
import Flappy.Paths.Join
import Flappy.Binpkg
import Flappy.Checkvers.Reverts
import Flappy.Checkvers.Exact
import Flappy.Alternatives.Normpath
import Flappy.Lib.Counter
import Flappy.Versions
import Flappy.Arrays
import Flappy.Proplib.Document
import Flappy.Proplib.Array
import Flappy.Http.Chunked
import Flappy.Http.Cache
import Flappy.Http.Hostname
import Flappy.Http.Auth
import Flappy.Http.Answer
import Flappy.Http.Request
import Flappy.Http.Truthful
import Flappy.Http.Resume
import Flappy.Http.KeepAlive
