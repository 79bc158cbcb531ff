import Colock.Lib.Transition
import Colock.Lib.HandOff
import Colock.Lib.Program
import Colock.Lib.Linked
import Colock.Lib.Serial
import Colock.Lib.Custody
import Colock.Lib.Amortised
import Colock.Lib.ThreadPark
import Colock.Lib.LockImpl
import Colock.Lib.LockStack
import Colock.Lib.SleepingLock
import Colock.Lib.Jobs
import Colock.Lib.Monitor
import Colock.Parking.Waker
import Colock.Parking.Model
import Colock.Parking.Token
import Colock.Parking.ParkUntil
import Colock.IntrusiveList.Model
import Colock.IntrusiveList.Shape
import Colock.IntrusiveList.Spec
import Colock.IntrusiveList.Deque
import Colock.IntrusiveList.Refinement
import Colock.IntrusiveList.FailedPush
import Colock.IntrusiveList.DropRace
import Colock.IntrusiveList.LowersLast
import Colock.IntrusiveList.Scan
import Colock.IntrusiveList.Concurrent
import Colock.IntrusiveList.WaitQueue
import Colock.MiniLock.Word
import Colock.MiniLock.Model
import Colock.MiniLock.Waiters
import Colock.MiniLock.Invariant
import Colock.MiniLock.Stack
import Colock.MiniLock.Soundness
import Colock.MiniLock.Wakeup
import Colock.MiniLock.Impl
import Colock.MiniLock.Ending
import Colock.MiniLock.LotsAndLots
import Colock.MiniLock.Asleep
import Colock.RawMutex.Word
import Colock.RawMutex.Model
import Colock.RawMutex.Steps
import Colock.RawMutex.HandOffView
import Colock.RawMutex.Exclusion
import Colock.RawMutex.FairHandOff
import Colock.RawMutex.WellFormed
import Colock.RawMutex.Party
import Colock.RawMutex.Wakeup
import Colock.RawMutex.NoLostWakeup
import Colock.RawMutex.HeldWaker
import Colock.RawMutex.WaitBit
import Colock.RawMutex.ShouldSleep
import Colock.RawMutex.PollerEntry
import Colock.RawMutex.ChosenWaiter
import Colock.RawMutex.TimedLock
import Colock.RawMutex.Custody
import Colock.RawMutex.OverMiniLock
import Colock.RawMutex.OverList
import Colock.Mutex.Guard
import Colock.Mutex.Sections
import Colock.Mutex.Impl
import Colock.Mutex.Awake
import Colock.Mutex.Ending
import Colock.Mutex.LotsAndLots
import Colock.Mutex.Asleep
import Colock.Barrier.Model
import Colock.Barrier.WellFormed
import Colock.Barrier.HeldWaker
import Colock.Barrier.OneGeneration
import Colock.Barrier.Ledger
import Colock.Barrier.GenerationLaw
import Colock.Barrier.OverMiniLock
import Colock.Barrier.Rounds
import Colock.Barrier.InStep
import Colock.Barrier.Stress
import Colock.Barrier.Asleep
import Colock.Barrier.OverList
