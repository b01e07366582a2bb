import Mrdl.Foundations.Runs
import Mrdl.Foundations.FileBytes
import Mrdl.Foundations.Lindley
import Mrdl.Types
import Mrdl.Fetcher.Core
import Mrdl.Fetcher.Buffer
import Mrdl.Fetcher.Outcome
import Mrdl.Fetcher.Reports
import Mrdl.Fetcher.Undisturbed
import Mrdl.Fetcher.Answers
import Mrdl.Fetcher.Exact
import Mrdl.Session.Core
import Mrdl.Session.Resume
import Mrdl.Session.SavedState
import Mrdl.Fetcher.UnknownSize
import Mrdl.Downloader.Core
import Mrdl.Downloader.Moves
import Mrdl.Downloader.UserControl
import Mrdl.Downloader.DiskError
import Mrdl.Workers.Core
import Mrdl.Workers.Conservation
import Mrdl.Writer.Core
import Mrdl.Hasher.Core
import Mrdl.Hasher.Moves
import Mrdl.System.Core
import Mrdl.Downloader.Success
import Mrdl.System.Traffic
import Mrdl.System.Fetches
import Mrdl.System.SavedBytes
import Mrdl.System.Exclusive
import Mrdl.Hasher.Fed
import Mrdl.System.Checksum
import Mrdl.System.RightBytes
import Mrdl.System.Completed
import Mrdl.System.Steps
import Mrdl.Hasher.Extent
import Mrdl.Throttle
import Mrdl.Foundations.Strands
import Mrdl.Writer.Mmap
import Mrdl.Writer.Interchange
import Mrdl.Foundations.TempFile
import Mrdl.Session.StateFile
import Mrdl.Downloader.Saves
import Mrdl.Session.Versions
import Mrdl.Workers.Health
import Mrdl.Workers.Tracked
import Mrdl.Workers.Budget
import Mrdl.Workers.SlowMirror
import Mrdl.Throttle.LiveRate
import Mrdl.Foundations.Tiling
import Mrdl.Progress.Core
import Mrdl.System.Tiling
import Mrdl.Hasher.Verify
import Mrdl.Prober.Core
import Mrdl.Prober.KeptMirror
import Mrdl.Prober.RangeHeader
import Mrdl.Session.AnyProgress
import Mrdl.Workers.Bans
import Mrdl.Workers.Order
import Mrdl.Workers.Pause
import Mrdl.Hasher.MmapStop
import Mrdl.Downloader.Resources
import Mrdl.Foundations.Locks
import Mrdl.Progress.Locking
import Mrdl.Writer.Truthful
import Mrdl.Foundations.Ansi
import Mrdl.Progress.Formatter
import Mrdl.Progress.Widths
import Mrdl.Foundations.Terminal
import Mrdl.Progress.Multi
import Mrdl.Downloader.Accepted
import Mrdl.Foundations.Restarts
import Mrdl.System.Mapped
import Mrdl.System.MappedBytes
import Mrdl.System.Interrupted
import Mrdl.System.Landed
import Mrdl.Workers.Blame
import Mrdl.Downloader.Results
import Mrdl.System.Results
import Mrdl.Cli
import Mrdl.Foundations.Reaching
import Mrdl.Writer.Draining
import Mrdl.Hasher.Passing
import Mrdl.System.Joined
import Mrdl.Workers.Ending
import Mrdl.System.Verdicts
import Mrdl.Downloader.Gate
import Mrdl.System.Sturdy
import Mrdl.System.Finishing
import Mrdl.System.Completing
import Mrdl.System.Halting
import Mrdl.Foundations.Costs
import Mrdl.Workers.Attempts
import Mrdl.System.Requests
import Mrdl.Foundations.Patches
import Mrdl.Writer.OneBody
import Mrdl.Fetcher.SameBody
import Mrdl.System.UnknownSize
import Mrdl.Progress.Updates
import Mrdl.System.FullBar
import Mrdl.Workers.Enduring
