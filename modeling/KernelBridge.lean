import KernelBridge.Driver.Module
import KernelBridge.Driver.Poll
import KernelBridge.Driver.Progress
import KernelBridge.Driver.Quiescence
import KernelBridge.Driver.Statistics
import KernelBridge.Driver.Wakeups
import KernelBridge.Lab.DriverVerdict
import KernelBridge.Lab.Evidence
import KernelBridge.Lab.Exchange
import KernelBridge.Lab.Experiment
import KernelBridge.Lab.Fixtures
import KernelBridge.Lab.Guidance
import KernelBridge.Lab.NoFalseAlarm
import KernelBridge.Lab.Precedence
import KernelBridge.Lab.Preflight
import KernelBridge.Lab.Prefixes
import KernelBridge.Lab.Projections
import KernelBridge.Lab.Recording
import KernelBridge.Lab.Reduction
import KernelBridge.Lab.Restoring
import KernelBridge.Lab.Runner
import KernelBridge.Lab.Sealing
import KernelBridge.Lab.Study
import KernelBridge.Lab.Unanimous
import KernelBridge.Lab.Baselines
import KernelBridge.Userspace.Boundaries
import KernelBridge.Userspace.Bounds
import KernelBridge.Userspace.Checksum
import KernelBridge.Userspace.Client
import KernelBridge.Userspace.Delivery
import KernelBridge.Userspace.ExitCode
import KernelBridge.Userspace.Interactive
import KernelBridge.Userspace.Numerals
import KernelBridge.Userspace.Resync
