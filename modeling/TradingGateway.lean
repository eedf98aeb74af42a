import TradingGateway.Common.Machine
import TradingGateway.Common.Sort
import TradingGateway.Common.Bytes
import TradingGateway.Message.Types
import TradingGateway.Book.Model
import TradingGateway.Book.Clearing
import TradingGateway.Engine.Uncrossed
import TradingGateway.Engine.Conservation
import TradingGateway.Engine.PricePriority
import TradingGateway.Engine.TieBreaking
import TradingGateway.Engine.TimePriority
import TradingGateway.Engine.Cancellation
import TradingGateway.Engine.Index
import TradingGateway.Engine.Sharding
import TradingGateway.Network.TcpServer
import TradingGateway.Network.Checksum
import TradingGateway.Queue.Counters
import TradingGateway.Queue.Collision
import TradingGateway.Gateway.Acks
import TradingGateway.Gateway.Segmentation
import TradingGateway.Gateway.Decoders
import TradingGateway.Gateway.Isolation
import TradingGateway.Gateway.Quantities
import TradingGateway.Gateway.Notifications
import TradingGateway.Client.Sending
import TradingGateway.Client.Receiving
import TradingGateway.Queue.Ownership
import TradingGateway.Engine.Taker
import TradingGateway.Engine.Lifetime
import TradingGateway.Gateway.Schedule
import TradingGateway.Gateway.Reports
import TradingGateway.Gateway.Fills
import TradingGateway.Client.Exchange
import TradingGateway.Client.Cutting
import TradingGateway.Benchmark.Stats
import TradingGateway.Metrics.StatsD
import TradingGateway.Benchmark.LoadGenerator
import TradingGateway.Network.Workers
