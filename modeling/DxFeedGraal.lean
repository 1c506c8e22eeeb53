import DxFeedGraal.PartialRuns
import DxFeedGraal.OrderedSet
import DxFeedGraal.TimeUtil
import DxFeedGraal.BitOperations
import DxFeedGraal.DoubleValues
import DxFeedGraal.TimeSequenceEvents
import DxFeedGraal.OrderSources
import DxFeedGraal.OrderIndices
import DxFeedGraal.ThreeWayComparisons
import DxFeedGraal.SortedOrderSets
import DxFeedGraal.MarketDepthBooks
import DxFeedGraal.MarketDepthModels
import DxFeedGraal.DelimitedTexts
import DxFeedGraal.CppStrings
import DxFeedGraal.MarketEventSymbols
import DxFeedGraal.SymbolAttributes
import DxFeedGraal.WellFormedSymbols
import DxFeedGraal.Numerals
import DxFeedGraal.NearestNumbers
import DxFeedGraal.CppNumbers
import DxFeedGraal.CandleAttributes
import DxFeedGraal.GroupedSymbols
import DxFeedGraal.NormalisingPasses
import DxFeedGraal.CandlePrinting
import DxFeedGraal.CandleNormalisation
import DxFeedGraal.EntityManagers
import DxFeedGraal.OwnershipLedgers
import DxFeedGraal.Promises
import DxFeedGraal.SourceIdentities
import DxFeedGraal.OrderLaws
import DxFeedGraal.DepthFilters
import DxFeedGraal.SimpleHandlers
import DxFeedGraal.StateChangeListeners
import DxFeedGraal.NativeStrings
import DxFeedGraal.SymbolWrappers
import DxFeedGraal.SymbolComparisons
import DxFeedGraal.EventClasses
import DxFeedGraal.EventConversions
import DxFeedGraal.EventMapper
import DxFeedGraal.LayeredOrders
import DxFeedGraal.OptionChains
import DxFeedGraal.OptionGroupings
import DxFeedGraal.KeyedRuns
import DxFeedGraal.OptionChainBuilds
import DxFeedGraal.ClearingLoops
import DxFeedGraal.QuoteTimes
import DxFeedGraal.SymbolEdits
import DxFeedGraal.SymbolLenses
import DxFeedGraal.SymbolScans
import DxFeedGraal.CandlePeriodTexts
import DxFeedGraal.OrderedSymbols
import DxFeedGraal.OrderedCandles
import DxFeedGraal.CandleSymbolChanges
import DxFeedGraal.CanonicalCandles
import DxFeedGraal.Enumerations
import DxFeedGraal.PackedFields
import DxFeedGraal.PackedFlags
import DxFeedGraal.DayIds
import DxFeedGraal.OptionSeriesEquality
import DxFeedGraal.StrikeCaches
import DxFeedGraal.EventSources
import DxFeedGraal.Metrics
import DxFeedGraal.StopWatches
import DxFeedGraal.SymbolLists
import DxFeedGraal.IndexLoops
import DxFeedGraal.ToolArguments
import DxFeedGraal.ToolParsers
import DxFeedGraal.ToolUsage
import DxFeedGraal.ToolLoops
import DxFeedGraal.UnboundedBits
import DxFeedGraal.ShiftHelpers
import DxFeedGraal.FieldHelpers
import DxFeedGraal.FieldRoundTrips
import DxFeedGraal.MarketDepthViews
import DxFeedGraal.OrderedTotals
import DxFeedGraal.PriceLevelBooks
import DxFeedGraal.PriceLevelViews
import DxFeedGraal.AsyncHandlerRuns
import DxFeedGraal.InstrumentProfileCollectors
import DxFeedGraal.MultipleMarketDepthModels
import DxFeedGraal.MultipleMarketDepthRuns
import DxFeedGraal.MultipleMarketDepthWaits
import DxFeedGraal.ListArguments
import DxFeedGraal.Timers
import DxFeedGraal.Broadcasts
import DxFeedGraal.FeedAttachments
import DxFeedGraal.FeedSubscriptionRuns
import DxFeedGraal.FeedSubscriptionWaits
