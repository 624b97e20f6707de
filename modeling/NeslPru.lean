import NeslPru.RbufferFifo
import NeslPru.RbufferShared
import NeslPru.PruTimeExact
import NeslPru.ClockAgreement
import NeslPru.PruClockSync
import NeslPru.TimeSyncReceive
import NeslPru.TimeSync
import NeslPru.MeasureSyncTime
import NeslPru.ReportPairs
import NeslPru.PruTimeOffset
import NeslPru.IepGaps
import NeslPru.IepSlew
import NeslPru.IepTimerReceive
import NeslPru.MeasureSyncSamples
import NeslPru.MeasureSyncEdges
import NeslPru.Linearizable
import NeslPru.RbufferLinear
import NeslPru.Bytes
import NeslPru.SharedMemory
import NeslPru.TimeSyncProgram
import NeslPru.TimeSyncMessages
import NeslPru.Alone
import NeslPru.Adc
import NeslPru.AdcDevice
import NeslPru.AdcSamples
import NeslPru.SlewedClock
import NeslPru.Text
import NeslPru.Stats
import NeslPru.Projection
import NeslPru.ReportThreads
import NeslPru.MeasureProgram
import NeslPru.MeasureReports
import NeslPru.Parts
import NeslPru.PruClockPrints
import NeslPru.Signal
import NeslPru.Gpio
import NeslPru.Waveform
