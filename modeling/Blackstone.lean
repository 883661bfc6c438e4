import Blackstone.Library.Cyclic
import Blackstone.Library.LinearProbing
import Blackstone.Library.RingBuffer
import Blackstone.Library.Runs
import Blackstone.Library.ExactLedger
import Blackstone.Library.ConstantProduct
import Blackstone.Balance.Cache
import Blackstone.Balance.FiniteMap
import Blackstone.Balance.Ledger
import Blackstone.TokenNode.Types
import Blackstone.TokenNode.BalanceCache
import Blackstone.TokenNode.TxPool
import Blackstone.TokenNode.Worker
import Blackstone.TokenNode.Hash
import Blackstone.TokenNode.Blockchain
import Blackstone.TokenNode.Miner
import Blackstone.TokenNode.Consensus
import Blackstone.TokenNode.Core
import Blackstone.TokenNode.ExactlyOnce
import Blackstone.TokenNode.History
import Blackstone.Engine.Types
import Blackstone.Engine.Ledger
import Blackstone.Engine.TxPool
import Blackstone.Engine.Threads
import Blackstone.Engine.DoubleSpend
import Blackstone.Engine.PoolCounters
import Blackstone.Engine.LiquidityPool
import Blackstone.Library.Retention
import Blackstone.TokenNode.PoolExpiry
import Blackstone.Bank.Sha1
import Blackstone.Library.DefaultMap
import Blackstone.Bank.Account
import Blackstone.Bank.Blockchain
import Blackstone.Bank.ChainSafety
import Blackstone.Bank.Node
import Blackstone.Bank.Solvency
import Blackstone.SingleFile.Blockchain
import Blackstone.Library.BoundedLog
import Blackstone.Library.Delimited
import Blackstone.Library.SignificantDigits
import Blackstone.Library.Pieces
import Blackstone.Library.MerkleCommitment
import Blackstone.Library.SlotPool
import Blackstone.Library.InverseMaps
import Blackstone.Bank.Ledger
import Blackstone.Bank.AuditLog
import Blackstone.Bank.PeerTables
import Blackstone.Bank.Text
import Blackstone.Bank.NetworkMessage
import Blackstone.Bank.AmountText
import Blackstone.Bank.Codec
import Blackstone.Bank.TransferredSignature
import Blackstone.Bank.SignedPayload
import Blackstone.Bank.Ternary
import Blackstone.Bank.PeerBounds
import Blackstone.Library.Sha1
import Blackstone.Bank.Sha1Standard
import Blackstone.Bank.TimerManager
import Blackstone.Bank.ThreadPool
import Blackstone.Library.Substrings
import Blackstone.Bank.VirusScan
import Blackstone.Bank.LoginBans
import Blackstone.Bank.ConnectionPool
import Blackstone.Library.CumulativeChoice
import Blackstone.Bank.Consensus
import Blackstone.Library.GroupIndex
import Blackstone.Bank.AccessControl
import Blackstone.Bank.PeerLink
import Blackstone.Bank.RootCommitment
import Blackstone.Library.BigEndian
import Blackstone.Library.Blocks
import Blackstone.Library.Sha2
import Blackstone.Library.Loops
import Blackstone.Library.Buffers
import Blackstone.Library.BlockStream
import Blackstone.Library.KeyDerivation
import Blackstone.Library.Aes
import Blackstone.Library.Ghash
import Blackstone.Library.ChaCha20
import Blackstone.Library.Poly1305
import Blackstone.Library.Crc
import Blackstone.Library.CrcPeriod
import Blackstone.Library.BinaryPolynomial
import Blackstone.Library.ByteOrder
import Blackstone.Library.ByteStream
import Blackstone.Library.SlotTable
import Blackstone.BankCrypto.ShaContext
import Blackstone.BankCrypto.Sha256
import Blackstone.BankCrypto.Sha512
import Blackstone.BankCrypto.Hmac
import Blackstone.BankCrypto.Pbkdf2
import Blackstone.BankCrypto.PasswordDerivation
import Blackstone.BankCrypto.Hkdf
import Blackstone.BankCrypto.Gcm
import Blackstone.BankCrypto.GcmCounter
import Blackstone.BankCrypto.GhashDeviation
import Blackstone.BankCrypto.Aes
import Blackstone.BankCrypto.ChaCha20
import Blackstone.BankCrypto.Poly1305
import Blackstone.BankCrypto.ChaChaPoly
import Blackstone.BankCrypto.Utils
import Blackstone.BankCrypto.Context
import Blackstone.BankCrypto.Session
import Blackstone.BankCrypto.Accounting
import Blackstone.BankCrypto.KeySeparation
import Blackstone.BankCrypto.SourcePrimitives
import Blackstone.BankCrypto.RandomPool
import Blackstone.BankCrypto.PoolProvenance
import Blackstone.BankCrypto.Envelope
import Blackstone.BankCrypto.EnvelopeRoundTrip
import Blackstone.BankCrypto.Transaction
import Blackstone.CryptoSingleFile.Wipe
import Blackstone.BankCrypto.ChaChaStream
import Blackstone.BankCrypto.KeyRing
import Blackstone.BankCrypto.CrcCombine
import Blackstone.CryptoSingleFile.Signing
import Blackstone.SecuritySystem.Crypto
import Blackstone.SecuritySystem.Packet
import Blackstone.SecuritySystem.Network
import Blackstone.SecuritySystem.Routing
import Blackstone.Library.FixedWindow
import Blackstone.Library.PermutationTable
import Blackstone.Library.Framing
import Blackstone.SecuritySystem.Sha256
import Blackstone.SecuritySystem.Firewall
import Blackstone.SecuritySystem.RateLimit
import Blackstone.P2PCrypto.Context
import Blackstone.P2PCrypto.PermutationTables
import Blackstone.P2PCrypto.Cipher
import Blackstone.P2PCrypto.Signature
import Blackstone.TransactionApi.Chunks
import Blackstone.TransactionApi.Cache
import Blackstone.Bank.WebSocket
import Blackstone.Bank.BalancedTernary
import Blackstone.Library.OrderedMap
import Blackstone.Bank.Database
import Blackstone.Library.LockGuard
import Blackstone.Bank.PeerManager
import Blackstone.Bank.BackupManager
import Blackstone.Bank.SelfDeadlock
import Blackstone.Bank.MultiFactor
import Blackstone.Bank.HexText
import Blackstone.Bank.KeyExchange
import Blackstone.Library.BinaryPower
import Blackstone.Bank.Ecc
import Blackstone.Bank.QuantumSignature
import Blackstone.Bank.Aes256
import Blackstone.SecurityProxy.System
import Blackstone.SecurityProxy.Accounting
import Blackstone.SecurityProxy.Bans
import Blackstone.Library.MerkleLoops
import Blackstone.Bank.MerkleLoops
import Blackstone.Library.SingleChange
import Blackstone.TokenNode.HashTamper
import Blackstone.Library.MerklePromotion
import Blackstone.TokenNode.MerkleRoot
import Blackstone.TransactionApi.StreamSplit
import Blackstone.Library.SlidingWindow
import Blackstone.TransactionApi.RateLimit
import Blackstone.SecurityProxy.RateLimiter
import Blackstone.Engine.BlockAssembly
import Blackstone.Engine.NftRegistry
import Blackstone.TokenNode.Difficulty
import Blackstone.Library.Repetition
import Blackstone.Library.ModifiedUtf8
import Blackstone.SecurityProxy.Messages
import Blackstone.SecuritySystem.Handshake
import Blackstone.Bank.PoolShutdown
import Blackstone.Library.Trim
import Blackstone.Bank.ConfigLoader
import Blackstone.Library.FisherYates
import Blackstone.TransactionApi.ChunkOrder
import Blackstone.P2PCrypto.BoxDraws
import Blackstone.P2PCrypto.KeyExchange
import Blackstone.Library.Answers
import Blackstone.Library.OwnerLists
import Blackstone.Bank.AccountRegister
import Blackstone.Library.DelimitedRecords
import Blackstone.Bank.AccountText
import Blackstone.Bank.SmartContract
import Blackstone.Bank.ContractText
import Blackstone.Library.LexOrder
import Blackstone.Updater.Versions
import Blackstone.Updater.Files
import Blackstone.Updater.UpdateManager
import Blackstone.Updater.Rollback
import Blackstone.Updater.Upgrades
import Blackstone.Library.RelationIndex
import Blackstone.Bank.Indexer
import Blackstone.Library.Traces
import Blackstone.Bank.SessionManager
import Blackstone.Library.FreeQueue
import Blackstone.Bank.BufferPool
import Blackstone.TransactionApi.ServerStore
import Blackstone.SecuritySystem.ProxyClients
