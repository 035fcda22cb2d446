import ModPerl.Interp.Isolation
import ModPerl.Interp.Ownership
import ModPerl.Interp.ScopeUnit
import ModPerl.Interp.Refcount
import ModPerl.Interp.Pnotes
import ModPerl.Interp.AnonSubs
import ModPerl.Interp.ResponsePhase
import ModPerl.Tipool.Retirement
import ModPerl.Tipool.Wakeup
import ModPerl.Library.Machine
import ModPerl.Filter.Streaming
import ModPerl.Filter.HeaderLines
import ModPerl.Filter.Install
import ModPerl.Filter.RuntimeAdd
import ModPerl.Filter.NextBytes
import ModPerl.Filter.SvBucket
import ModPerl.Filter.Chain
import ModPerl.Handler.Callback
import ModPerl.Handler.Merge
import ModPerl.Handler.Mgv
import ModPerl.Handler.Resolve
import ModPerl.Handler.Equality
import ModPerl.Handler.ReadBack
import ModPerl.Config.Vars
import ModPerl.Config.DirConfig
import ModPerl.Config.Directives
import ModPerl.Config.PerlSections
import ModPerl.Config.SectionsDump
import ModPerl.Config.Options
import ModPerl.Config.Collisions
import ModPerl.Config.Lookup
import ModPerl.Config.FilePackage
import ModPerl.Env.Mirror
import ModPerl.Env.Requests
import ModPerl.Module.SvptrClone
import ModPerl.Module.ConfigObj
import ModPerl.Module.TableTie
import ModPerl.Module.TableDo
import ModPerl.Server.Walk
import ModPerl.Server.Loading
import ModPerl.Request.GlobalRequest
import ModPerl.Request.DocumentRoot
import ModPerl.Request.Read
import ModPerl.Request.Response
import ModPerl.Request.Nested
import ModPerl.Apr.PoolParents
import ModPerl.Perl.Globals
import ModPerl.Perl.Unload
import ModPerl.Perl.DlHandles
import ModPerl.Perl.EndBlocks
import ModPerl.Perl.Constants
import ModPerl.Reload.Converge
import ModPerl.Registry.Namespace
import ModPerl.Registry.Cooker
import ModPerl.Registry.Held
import ModPerl.Registry.Freshness
import ModPerl.Registry.Chdir
import ModPerl.Registry.Wrapper
import ModPerl.Registry.Store
