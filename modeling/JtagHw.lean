import JtagHw.TapReset
import JtagHw.Lib.CountedLoop
import JtagHw.Lib.PackedBits
import JtagHw.Lib.Fallible
import JtagHw.Lib.Batch
import JtagHw.Plugin.Queue
import JtagHw.Plugin.Calls
import JtagHw.Plugin.Contract
import JtagHw.Dummy
import JtagHw.Mpsse.BinaryBuffer
import JtagHw.Mpsse.Transfer
import JtagHw.Mpsse.Context
import JtagHw.Mpsse.Flush
import JtagHw.Otma
import JtagHw.UsbFailure
import JtagHw.QueueBounds
import JtagHw.Session
import JtagHw.Loading
import JtagHw.Plugin.Discovery
import JtagHw.Mpsse.Open
import JtagHw.ShiftWindow
import JtagHw.Download
import JtagHw.QueueCalls
import JtagHw.QueueWords
import JtagHw.Reentrancy
import JtagHw.DeviceHandle
import JtagHw.Callbacks
import JtagHw.Lib.PrefixCode
import JtagHw.Mpsse.Command
import JtagHw.Mpsse.Engine
import JtagHw.Mpsse.Api
import JtagHw.Mpsse.Queueing
import JtagHw.Mpsse.Meaning
import JtagHw.Mpsse.Deferred
import JtagHw.Mpsse.AnyDevice
import JtagHw.Mpsse.Frequency
import JtagHw.Agreement
import JtagHw.TestMpsse
import JtagHw.Ftdi.Driver
import JtagHw.Ftdi.Tracking
import JtagHw.Ftdi.Session
import JtagHw.Lib.Digits
import JtagHw.Lib.Rounding
import JtagHw.BinaryBuffer.Numerals
import JtagHw.BinaryBuffer.Bits
import JtagHw.BinaryBuffer.Hex
import JtagHw.BinaryBuffer.Flip
