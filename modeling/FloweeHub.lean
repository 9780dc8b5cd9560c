import FloweeHub.Validation.Maturity
import FloweeHub.Validation.ValidityOnly
import FloweeHub.Validation.Disconnect
import FloweeHub.Validation.Money
import FloweeHub.Mempool.ScriptSearch
import FloweeHub.Chain.Rebuild
import FloweeHub.Validation.DamagedBody
import FloweeHub.Utxo.InfoFile
import FloweeHub.Indexer.HashFind
import FloweeHub.Mempool.TotalsRuns
import FloweeHub.Network.Listening
import FloweeHub.Utxo.BucketIterator
import FloweeHub.Utxo.Rotation
import FloweeHub.Utxo.Following
import FloweeHub.P2P.HeightLookups
import FloweeHub.P2P.PeerTables
import FloweeHub.P2P.Requests
import FloweeHub.Chain.Cw144
import FloweeHub.Script.SchnorrMultisig
import FloweeHub.Script.TransactionBuilder
import FloweeHub.Api.UtxoFetcher
import FloweeHub.Streaming.UntilEnd
import FloweeHub.Validation.MerkleCommits
import FloweeHub.Network.RingArray
import FloweeHub.Mempool.ProofOrder
import FloweeHub.Streaming.P2PParser
import FloweeHub.Api.Offsets
import FloweeHub.Primitives.CashAddress
import FloweeHub.Primitives.Base58
import FloweeHub.Primitives.Bloom
