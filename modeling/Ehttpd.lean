import Ehttpd.Http.StaleMemory
import Ehttpd.Core.PallocRuns
import Ehttpd.Http.Version
import Ehttpd.Http.HeaderBlock
import Ehttpd.Http.FastUri
import Ehttpd.Http.Descriptors
import Ehttpd.Http.AllocFailure
import Ehttpd.Event.Loop
import Ehttpd.Http.FileMemory
import Ehttpd.Http.OpenedName
import Ehttpd.Http.QuerySplit
import Ehttpd.Http.RedirectTarget
import Ehttpd.Http.UriPointers
import Ehttpd.Core.DestroyPool
import Ehttpd.Core.Containers
import Ehttpd.Core.ListSound
import Ehttpd.Core.ListRuns
import Ehttpd.Core.Objects
import Ehttpd.Core.ObjectCalls
import Ehttpd.Core.ArrayCalls
import Ehttpd.Core.ContainerRuns
import Ehttpd.Event.ActiveFlag
import Ehttpd.Core.Listening
import Ehttpd.Event.Accepting
import Ehttpd.Event.Connections
import Ehttpd.Http.AllAnswered
import Ehttpd.Http.Drained
import Ehttpd.Http.PoolBalance
import Ehttpd.Event.Echo
import Ehttpd.Http.ServedFile
import Ehttpd.Http.Terminators
import Ehttpd.Http.MethodToken
import Ehttpd.Http.BufferSpace
import Ehttpd.Http.WholeHead
import Ehttpd.Core.ListRefines
import Ehttpd.Event.Startup
import Ehttpd.Http.ClientRequests
import Ehttpd.Http.ClientResponses
import Ehttpd.Http.Conversations
import Ehttpd.Event.Clients
import Ehttpd.Http.AllocFailure
