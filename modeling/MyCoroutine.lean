import MyCoroutine.Lib.TransitionSystem
import MyCoroutine.Lib.Counting
import MyCoroutine.Lib.OneShot
import MyCoroutine.Lib.EndlessRun
import MyCoroutine.Lib.SharedPtr
import MyCoroutine.Lib.Locks
import MyCoroutine.Fiber.Lifecycle
import MyCoroutine.Scheduler.Shutdown
import MyCoroutine.Scheduler.Overtaking
import MyCoroutine.Scheduler.Termination
import MyCoroutine.Scheduler.YieldRace
import MyCoroutine.Scheduler.Ownership
import MyCoroutine.Scheduler.ResumeRace
import MyCoroutine.Scheduler.Contexts
import MyCoroutine.IOManager.Idle
import MyCoroutine.IOManager.Timeout
import MyCoroutine.IOManager.Shutdown
import MyCoroutine.IOManager.Accounting
import MyCoroutine.IOManager.Termination
import MyCoroutine.IOManager.Tickle
import MyCoroutine.IOManager.AddRuns
import MyCoroutine.IOManager.Entry
import MyCoroutine.IOManager.Growth
import MyCoroutine.FdManager
import MyCoroutine.Timer.Order
import MyCoroutine.Timer.Alarms
import MyCoroutine.Timer.Notice
import MyCoroutine.Timer.Expiry
import MyCoroutine.Timer.Rollover
import MyCoroutine.Timer.Handles
import MyCoroutine.Hook.DoIo
import MyCoroutine.Hook.WakeUp
import MyCoroutine.Hook.TimedOut
import MyCoroutine.Hook.CallTimer
import MyCoroutine.Hook.Connect
import MyCoroutine.Hook.Retry
import MyCoroutine.Hook.Sleep
import MyCoroutine.Hook.Close
import MyCoroutine.Hook.Switch
import MyCoroutine.Hook.Histories
import MyCoroutine.Hook.Modes
import MyCoroutine.Hook.Requests
import MyCoroutine.Hook.Timeouts
import MyCoroutine.Threads.Deadlock
import MyCoroutine.Threads.Races
