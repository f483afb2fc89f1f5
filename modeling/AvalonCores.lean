import AvalonCores.AvalonMm.Master
import AvalonCores.AvalonMm.Slave
import AvalonCores.CommonTools.Fifo
import AvalonCores.CommonTools.FifoExchange
import AvalonCores.MemoryTester.ChopperRun
import AvalonCores.MemoryTester.CommandSchedule
import AvalonCores.MemoryTester.PopulatePattern
import AvalonCores.MemoryTester.ReaderBursts
import AvalonCores.MemoryTester.ReaderBoundaries
import AvalonCores.MemoryTester.ConcurrentAccess
import AvalonCores.MemoryTester.RunCompletion
import AvalonCores.MemoryTester.MemoryTesterSystem
import AvalonCores.AvalonMm.MasterRequest
import AvalonCores.MemoryTester.PathSelection
import AvalonCores.MemoryTester.TestTimer
import AvalonCores.MemoryTester.CheckerVerdict
import AvalonCores.MemoryTester.SeedAndRun
import AvalonCores.MemoryTester.PrbsPeriod
import AvalonCores.AvalonMm.SlaveReads
import AvalonCores.De0Nano.SystemControl
import AvalonCores.De0Nano.I2cClocking
import AvalonCores.MemoryTester.GeneratorPayload
import AvalonCores.MemoryTester.RamTestControllerRoundTrip
import AvalonCores.MemoryTester.CustomPatternRoundTrip
import AvalonCores.MemoryTester.PrbsPolynomialDriver
import AvalonCores.MemoryTester.ValidateResults
import AvalonCores.MemoryTester.TestSweep
import AvalonCores.MemoryTester.PrbsReversible
import AvalonCores.MemoryTester.PrbsTest
import AvalonCores.MemoryTester.FaultDetection
import AvalonCores.MemoryTester.SweepTests
import AvalonCores.JtagUart.TransmitProgress
import AvalonCores.JtagUart.ReceiveProgress
