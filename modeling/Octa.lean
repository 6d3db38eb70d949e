import Octa.Restore.Faults
import Octa.Restore.Locking
import Octa.Scheduler.Failures
import Octa.Scheduler.Registration
import Octa.Task.Contract
import Octa.Task.RunOnce
import Octa.ResultCache.Completeness
import Octa.ResultCache.Identity
import Octa.Output.Annotations
import Octa.Output.Chunking
import Octa.Output.Prefixing
import Octa.Output.Routing
import Octa.Output.Tokens
import Octa.Monorepo.Declarative
import Octa.Dag.Order
import Octa.Planner.Naming
import Octa.Planner.Order
import Octa.ResultCache.Layered
import Octa.ResultCache.Replay
import Octa.LocalStore.Capacity
import Octa.LocalStore.Blobs
import Octa.LocalStore.Collection
import Octa.Recorder.Lifecycle
import Octa.Forwarding.Determinism
import Octa.PluginClient.Connection
import Octa.PluginClient.Isolation
import Octa.Finder.Names
import Octa.Finder.Loading
import Octa.Fileset.Contract
import Octa.Fileset.Groups
import Octa.Snapshot.Memo
import Octa.Bundle.Restorability
import Octa.CacheHttp.Circuit
import Octa.CacheHttp.Missing
import Octa.ResultCache.CanonicalJson
import Octa.Codex.Sanitization
import Octa.Codex.Provenance
