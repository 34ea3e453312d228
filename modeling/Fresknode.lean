import Fresknode.SerialHandover
import Fresknode.SerialFrames
import Fresknode.SerialStream
import Fresknode.TimerLog
import Fresknode.TimerIdle
import Fresknode.TimerElapsed
import Fresknode.TimerTable
import Fresknode.SystemLifecycle
import Fresknode.SystemRestart
import Fresknode.SystemResubscribe
import Fresknode.SystemWalks
import Fresknode.SystemShutdown
import Fresknode.Interrupt
import Fresknode.StartupSafety
import Fresknode.StartupIdentity
import Fresknode.EepromRoundTrip
import Fresknode.SerialReports
import Fresknode.TimerFresh
import Fresknode.SystemTrace
import Fresknode.SystemShutdownEnds
import Fresknode.SystemAtomicity
import Fresknode.MainProgress
import Fresknode.EepromBus
import Fresknode.Bootloader
