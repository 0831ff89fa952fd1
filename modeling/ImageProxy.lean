import ImageProxy.Library.StepSystem
import ImageProxy.Library.Ranking
import ImageProxy.Library.BoundedFifo
import ImageProxy.Library.Transducer
import ImageProxy.Library.AppendStream
import ImageProxy.Library.Pieces
import ImageProxy.Library.QuotedSplit
import ImageProxy.Library.Ascii
import ImageProxy.Library.ChunkedCoding
import ImageProxy.Library.CInteger
import ImageProxy.Library.Glob
import ImageProxy.Library.Memory
import ImageProxy.Library.PathNames
import ImageProxy.Library.FixedWidth
import ImageProxy.Cpcl.DynamicMemoryStream
import ImageProxy.Cpcl.StreamRuns
import ImageProxy.Cpcl.Clones
import ImageProxy.Cpcl.IoStream
import ImageProxy.Cpcl.IStreamImpl
import ImageProxy.Cpcl.MemoryStream
import ImageProxy.Cpcl.MemoryCursor
import ImageProxy.Cpcl.MemoryRuns
import ImageProxy.Cpcl.CopyTo
import ImageProxy.Cpcl.CsvFields
import ImageProxy.Cpcl.CsvReader
import ImageProxy.Cpcl.CsvRun
import ImageProxy.Cpcl.CsvBuffers
import ImageProxy.Cpcl.CsvRoundTrip
import ImageProxy.Cpcl.CsvShortReads
import ImageProxy.Cpcl.CsvSplit
import ImageProxy.Cpcl.CsvInPlace
import ImageProxy.Cpcl.StringUtil
import ImageProxy.Cpcl.StringCast
import ImageProxy.Cpcl.Utf8
import ImageProxy.Cpcl.Utf8Decode
import ImageProxy.Cpcl.Utf8Buffers
import ImageProxy.Cpcl.SplitIterator
import ImageProxy.Cpcl.SplitPieces
import ImageProxy.Cpcl.MaskMatch
import ImageProxy.Cpcl.FileUtil
import ImageProxy.Cpcl.FileNames
import ImageProxy.Cpcl.FileIterator
import ImageProxy.Cpcl.ScopedBuf
import ImageProxy.Cpcl.ScopedBufSwap
import ImageProxy.Cpcl.FormatIdiv
import ImageProxy.Cpcl.TraceHeader
import ImageProxy.Cpcl.Trace
import ImageProxy.Cpcl.LibxmlUtil
import ImageProxy.Cpcl.Cp1251
import ImageProxy.Cpcl.XmlConvert
import ImageProxy.Cpcl.XmlRoundTrip
import ImageProxy.Http.Parser
import ImageProxy.Http.Execute
import ImageProxy.Http.Coherence
import ImageProxy.Http.Bytewise
import ImageProxy.Http.HttpParse
import ImageProxy.Http.HeaderTable
import ImageProxy.Http.Trailers
import ImageProxy.Http.Response
import ImageProxy.Http.Url
import ImageProxy.Http.UrlParts
import ImageProxy.Http.UrlQuery
import ImageProxy.Http.UrlHost
import ImageProxy.Http.RequestUrl
import ImageProxy.Http.CallbackOrder
import ImageProxy.Http.Asserts
import ImageProxy.Http.ChunkedBody
import ImageProxy.Http.HeaderNames
import ImageProxy.Http.HeaderLines
import ImageProxy.Http.ResponseHead
import ImageProxy.Http.RequestHead
import ImageProxy.Http.Strings
import ImageProxy.Http.UrlBytes
import ImageProxy.Http.Message
import ImageProxy.ImageCache
import ImageProxy.TaskPool
import ImageProxy.TaskPoolStop
import ImageProxy.Connection.Query
import ImageProxy.Connection.QueryParse
import ImageProxy.Connection.LongPath
import ImageProxy.Connection.Messages
import ImageProxy.Connection.Handlers
import ImageProxy.Connection.Continuations
import ImageProxy.Connection.ChunkedResponse
import ImageProxy.Connection.LongImage
import ImageProxy.Connection.Reading
import ImageProxy.Connection.Request
import ImageProxy.Connection.Response
import ImageProxy.Connection.Redirect
import ImageProxy.Connection.Fetch
import ImageProxy.Connection.BuildRequest
import ImageProxy.Connection.SharedImage
import ImageProxy.Connection.Footprint
import ImageProxy.Connection.Proxy
import ImageProxy.Connection.RoundTrip
import ImageProxy.Connection.Payload
import ImageProxy.Connection.Answer
import ImageProxy.Connection.Upstream
import ImageProxy.Jpeg.OutputManager
import ImageProxy.Jpeg.RenderingDevice
import ImageProxy.Jpeg.SweepOrder
import ImageProxy.Jpeg.DeviceRuns
