import BpmGateware.Clocked.Run
import BpmGateware.Clocked.Hold
import BpmGateware.Clocked.Component
import BpmGateware.OrbitIntlk.Basic
import BpmGateware.OrbitIntlk.Detector
import BpmGateware.OrbitIntlk.Trip
import BpmGateware.OrbitIntlk.MinSum
import BpmGateware.OrbitIntlk.Verdict
import BpmGateware.OrbitIntlk.Spurious
import BpmGateware.OrbitIntlk.Latch
import BpmGateware.OrbitIntlk.Reset
import BpmGateware.Clocked.AsyncFifo
import BpmGateware.OrbitIntlk.Cdc
import BpmGateware.BpmSwap.Basic
import BpmGateware.BpmSwap.Sync
import BpmGateware.BpmSwap.Regs
import BpmGateware.BpmSwap.Wb
import BpmGateware.BpmSwap.Period
import BpmGateware.BpmSwap.Range
import BpmGateware.BpmSwap.Deswap
import BpmGateware.PositionCalc.AdcOffset
import BpmGateware.PositionCalc.Multiplier
import BpmGateware.Clocked.Systolic
import BpmGateware.Clocked.Stretch
import BpmGateware.HpfAdcinput.Basic
import BpmGateware.HpfAdcinput.Exact
import BpmGateware.Mixer.Basic
import BpmGateware.Mixer.Pairing
import BpmGateware.Mixer.Enable
import BpmGateware.SwWindowing.Counter
import BpmGateware.SwWindowing.Conditioner
import BpmGateware.Fofb.Sender
import BpmGateware.Fofb.Session
import BpmGateware.Clocked.PulseSync
import BpmGateware.Clocked.AckSlave
import BpmGateware.Clocked.RegBank
import BpmGateware.OrbitIntlk.Regs
import BpmGateware.OrbitIntlk.Access
import BpmGateware.OrbitIntlk.Wb
import BpmGateware.Clocked.FifoCrossing
import BpmGateware.Clocked.FifoPort
import BpmGateware.Clocked.SyncFifo
import BpmGateware.PositionCalc.Monit
import BpmGateware.PositionCalc.MonitFifo
import BpmGateware.PositionCalc.Tags
import BpmGateware.Clocked.Join
import BpmGateware.OrbitIntlk.Response
import BpmGateware.PositionCalc.Calibration
