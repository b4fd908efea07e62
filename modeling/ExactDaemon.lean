import ExactDaemon.Lib.Weave
import ExactDaemon.Lib.Lines
import ExactDaemon.Lib.Posix
import ExactDaemon.Lib.Follow
import ExactDaemon.World
import ExactDaemon.Auth.Atomic
import ExactDaemon.Auth.Nested
import ExactDaemon.Auth.Backends
import ExactDaemon.Auth.Failing
import ExactDaemon.Auth.Discipline
import ExactDaemon.Auth.Bounds
import ExactDaemon.Lib.Sort
import ExactDaemon.Lib.Table
import ExactDaemon.Lib.Lease
import ExactDaemon.Lib.Points
import ExactDaemon.Lib.CharArray
import ExactDaemon.Lib.Cut
import ExactDaemon.Lib.Decimal
import ExactDaemon.Lib.Machine
import ExactDaemon.Lib.RexpSyntax
import ExactDaemon.Conf.Restart
import ExactDaemon.Conf.Visible
import ExactDaemon.Conf.Stanzas
import ExactDaemon.Conf.Layout
import ExactDaemon.Conf.Intervals
import ExactDaemon.Conf.Spelling
import ExactDaemon.Conf.Tokens
import ExactDaemon.Conf.Ownership
import ExactDaemon.Tail.Append
import ExactDaemon.Tail.Quiet
import ExactDaemon.Tail.Rotate
import ExactDaemon.Match.OnePass
import ExactDaemon.Match.Redirect
import ExactDaemon.Tail.Measure
import ExactDaemon.Tail.Paws
import ExactDaemon.Daemon.SingleInstance
import ExactDaemon.Lib.Signals
import ExactDaemon.Daemon.Main
import ExactDaemon.Daemon.Nesting
import ExactDaemon.Daemon.Termination
import ExactDaemon.Daemon.Confined
import ExactDaemon.Daemon.Service
import ExactDaemon.Daemon.Handed
import ExactDaemon.Daemon.Usable
import ExactDaemon.Conf.Effective
