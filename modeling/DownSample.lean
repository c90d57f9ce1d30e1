import DownSample.Library.Grid
import DownSample.Library.Loop
import DownSample.Library.Overlay
import DownSample.Library.Interleaving
import DownSample.Library.Timeline
import DownSample.Library.Runs
import DownSample.Library.LittleEndian
import DownSample.Library.Radix
import DownSample.Library.IntBits
import DownSample.AcInt
import DownSample.AcChannel
import DownSample.ChannelRuns
import DownSample.IntegerVector.Words
import DownSample.IntegerVector.Arithmetic
import DownSample.IntegerVector.Product
import DownSample.IntegerVector.Order
import DownSample.IntegerVector.Bits
import DownSample.IntegerVector.Adjusted
import DownSample.IntegerVector.Operators
import DownSample.IntegerVector.Slices
import DownSample.IntegerVector.SingleWord
import DownSample.Mat
import DownSample.Buffers
import DownSample.ByteLine
import DownSample.Design
import DownSample.Picture
import DownSample.Streaming
import DownSample.FrameCall
import DownSample.Driver
import DownSample.Causality
import DownSample.Environment
import DownSample.Instances
import DownSample.LineMemory
import DownSample.Bitmap.Headers
import DownSample.Bitmap.Pixels
import DownSample.Bitmap.Rows
import DownSample.Bitmap.Load
import DownSample.Bitmap.Write
import DownSample.TestBench.ReadBack
import DownSample.TestBench.Feed
import DownSample.TestBench.Opencv
import DownSample.TestBench.Catapult
import DownSample.TestBench.FromFile
