import EsSensor.Library.CheckedLoop
import EsSensor.Library.StreamMachine
import EsSensor.Library.LoopTrace
import EsSensor.Library.CausalSeries
import EsSensor.Library.CyclicIndex
import EsSensor.Library.DelayLine
import EsSensor.Library.MachineWord
import EsSensor.Library.FloatRounding
import EsSensor.Library.AvroBinary
import EsSensor.Library.ByteOrder
import EsSensor.Library.FrameCode
import EsSensor.Library.Batches
import EsSensor.Library.FifoChain
import EsSensor.Library.GuardedRun
import EsSensor.Library.FairSchedule
import EsSensor.Library.CollectingBlock
import EsSensor.Library.DrainChain
import EsSensor.Library.Lockstep
import EsSensor.Library.OverlappingWindows
import EsSensor.Library.DelimitedText
import EsSensor.Library.PartialTransfer
import EsSensor.Library.EventLoop
import EsSensor.Library.MirroredFill
import EsSensor.Library.WeightedRange
import EsSensor.Library.AvroSchema
import EsSensor.CicFilter
import EsSensor.Polyphase
import EsSensor.RationalFilter
import EsSensor.FractionalFilter
import EsSensor.TapPadding
import EsSensor.Interpolation
import EsSensor.FilterEquivalence
import EsSensor.Resampler
import EsSensor.CicGrowth
import EsSensor.RatePlanning
import EsSensor.DecoderConfig
import EsSensor.SampleCounts
import EsSensor.ElectrosenseContext
import EsSensor.Settings
import EsSensor.SegmentOverlap
import EsSensor.CommandLine
import EsSensor.Watcher
import EsSensor.ComponentStop
import EsSensor.ControlChannel
import EsSensor.SpectrumSegment
import EsSensor.SequentialHopping
import EsSensor.HopCoverage
import EsSensor.RtlsdrDriver
import EsSensor.TuningLabels
import EsSensor.FrequencyPolling
import EsSensor.DirectSampling
import EsSensor.SpectrumInversion
import EsSensor.SegmentCutting
import EsSensor.FailedReads
import EsSensor.Averaging
import EsSensor.PsdPipeline
import EsSensor.SpectralWindow
import EsSensor.AvroSerialization
import EsSensor.Transmission
import EsSensor.IQStream
import EsSensor.IqCapture
import EsSensor.OutputFileName
import EsSensor.ServerSpecification
import EsSensor.WriteLoops
import EsSensor.ReadLoops
import EsSensor.ConverterProxy
import EsSensor.ConverterPolling
import EsSensor.ConverterReply
import EsSensor.FIRDesign
import EsSensor.DroopCompensation
import EsSensor.OutputRange
import EsSensor.Ieee754
import EsSensor.HopList
import EsSensor.ExportedTime
import EsSensor.AvroRecords
import EsSensor.Collector
import EsSensor.HopRecords
import EsSensor.IqDelivery
import EsSensor.AsyncCapture
import EsSensor.DownsamplerChain
import EsSensor.SensorId
import EsSensor.PsdFast
import EsSensor.HopTable
import EsSensor.SegmentOwnership
import EsSensor.SensorAssembly
import EsSensor.QueueHistory
import EsSensor.QueueProgress
import EsSensor.QueueDestruction
import EsSensor.QueueNetwork
import EsSensor.QueueDrain
