import Goqjs.Runs
import Goqjs.Promises
import Goqjs.GoChan
import Goqjs.JsValues
import Goqjs.Timers
import Goqjs.TimerSteps
import Goqjs.TimerSafety
import Goqjs.TimerPending
import Goqjs.TimerClear
import Goqjs.TimerHasPending
import Goqjs.TimerOwnership
import Goqjs.TimerOrder
import Goqjs.Fetches
import Goqjs.FetchSettle
import Goqjs.FetchNotify
import Goqjs.FetchBlock
import Goqjs.StackTop
import Goqjs.Dispatch
import Goqjs.DispatchReplies
import Goqjs.Requests
import Goqjs.RequestCallback
import Goqjs.Pieces
import Goqjs.EngineStrings
import Goqjs.EngineCodec
import Goqjs.EngineRoundTrip
import Goqjs.Hex
import Goqjs.Base64
import Goqjs.Binary64
import Goqjs.Bindings
import Goqjs.Encoding
import Goqjs.Buffers
import Goqjs.TextRoundTrip
import Goqjs.BinaryCodecs
import Goqjs.PreludeBuffers
import Goqjs.Crypto
import Goqjs.BinaryInput
import Goqjs.Functions
import Goqjs.FunctionInvariant
import Goqjs.FunctionSteps
import Goqjs.FunctionIsolation
import Goqjs.Merges
import Goqjs.FetchRequest
import Goqjs.PreludeRequest
import Goqjs.RequestBody
import Goqjs.ContentType
import Goqjs.Percent
import Goqjs.Separators
import Goqjs.NetUrl
import Goqjs.UrlValues
import Goqjs.UrlObject
import Goqjs.EngineText
import Goqjs.UrlText
import Goqjs.UrlSpelling
import Goqjs.UrlHosts
import Goqjs.UrlParts
import Goqjs.UrlLiteral
import Goqjs.UrlReassembly
import Goqjs.CallReadings
import Goqjs.PolyfillFunctions
import Goqjs.ExceptionTransparency
import Goqjs.PairLists
import Goqjs.UrlParams
import Goqjs.QueryParsers
import Goqjs.SearchParams
import Goqjs.UrlQuery
import Goqjs.UrlParamsStep
import Goqjs.UriComponent
import Goqjs.FormBody
import Goqjs.BlockModes
import Goqjs.AesRoundTrip
import Goqjs.TimerClose
import Goqjs.TimerProcess
import Goqjs.SharedHeaders
import Goqjs.JsonParser
import Goqjs.JsonGrammar
import Goqjs.JsonReading
import Goqjs.JsonDecoding
import Goqjs.ResponseJson
import Goqjs.FunctionLifetimes
import Goqjs.FunctionRetention
import Goqjs.Binary64Rounding
import Goqjs.IntegerBoundary
import Goqjs.KeyedLists
import Goqjs.EngineObjects
import Goqjs.PropertyNames
import Goqjs.PropertyMap
import Goqjs.ResponseHeaders
import Goqjs.HeadersReadAlike
import Goqjs.ReferenceGraph
import Goqjs.GcHeaders
import Goqjs.GcFreeing
import Goqjs.GcSteps
import Goqjs.GcTurns
import Goqjs.GcTracing
import Goqjs.GcRuns
import Goqjs.GcCollection
import Goqjs.JsonWriter
import Goqjs.JsonWritten
import Goqjs.JsonTexts
import Goqjs.JsonRoundTrip
import Goqjs.JsonCycles
import Goqjs.ChainedIndex
import Goqjs.Shapes
import Goqjs.ShapeTables
import Goqjs.ShapeSharing
import Goqjs.ShapeHash
import Goqjs.ShapeObjects
import Goqjs.ShapeChanges
import Goqjs.ShapeRuns
import Goqjs.OrderedMaps
import Goqjs.Buckets
import Goqjs.Maps
import Goqjs.MapRecords
import Goqjs.MapTables
import Goqjs.MapIterators
import Goqjs.MapClear
import Goqjs.MapEntries
import Goqjs.Outcomes
import Goqjs.Ropes
import Goqjs.RopeBuckets
import Goqjs.RopeRebalancing
import Goqjs.RopeBounds
import Goqjs.RopeLengths
import Goqjs.RopeRuns
import Goqjs.RopeRecursion
import Goqjs.RopeCompare
import Goqjs.RopeKeys
import Goqjs.MapKeys
import Goqjs.MapRuns
