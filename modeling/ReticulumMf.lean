import ReticulumMf.Lib.BigEndian
import ReticulumMf.Lib.Base64
import ReticulumMf.Lib.ByteReader
import ReticulumMf.Lib.CborHead
import ReticulumMf.Lib.Decimal
import ReticulumMf.Lib.Except
import ReticulumMf.Lib.Files
import ReticulumMf.Lib.Ieee
import ReticulumMf.Lib.Paths
import ReticulumMf.Lib.Utf8
import ReticulumMf.Lib.MsgpackFormat
import ReticulumMf.Lib.Replay
import ReticulumMf.Lib.Scan
import ReticulumMf.Lib.Slice
import ReticulumMf.Lib.Sorting
import ReticulumMf.Msgpack.Value
import ReticulumMf.Msgpack.Encode
import ReticulumMf.Msgpack.Order
import ReticulumMf.Msgpack.Decode
import ReticulumMf.Msgpack.Typed
import ReticulumMf.Msgpack.Reread
import ReticulumMf.Msgpack.Unmarshal
import ReticulumMf.Lxmf.Payload
import ReticulumMf.Lxmf.Split
import ReticulumMf.Lxmf.Fields
import ReticulumMf.Lxmf.Message
import ReticulumMf.Lxmf.Unpack
import ReticulumMf.Lxmf.MessageId
import ReticulumMf.Lxmf.Container
import ReticulumMf.Lxmf.Verification
import ReticulumMf.Lxmf.Pack
import ReticulumMf.Lxmf.PackUnpack
import ReticulumMf.Lxmf.PackState
import ReticulumMf.Lxmf.Reread
import ReticulumMf.Lxmf.Received
import ReticulumMf.Lxmf.FieldsRoundTrip
import ReticulumMf.Lxmf.Stamp
import ReticulumMf.Lxmf.StampScore
import ReticulumMf.Lxmf.StampedSend
import ReticulumMf.Lxmf.Propagation
import ReticulumMf.Lxmf.Delivery
import ReticulumMf.Lxmf.DeliveryLink
import ReticulumMf.Lxmf.LinkPayload
import ReticulumMf.Lxmf.DirectSend
import ReticulumMf.Lxmf.Paper
import ReticulumMf.Lxmf.Announce
import ReticulumMf.Lxmf.PNAnnounce
import ReticulumMf.Lxmf.OrderFree
import ReticulumMf.Lxmf.Store
import ReticulumMf.Lxmf.PayloadLimits
import ReticulumMf.Lxmf.Config
import ReticulumMf.Lxmf.ConfigRoundTrip
import ReticulumMf.Lxmf.Hex
import ReticulumMf.Lxmf.StoreName
import ReticulumMf.Lxmf.Registry
import ReticulumMf.Lxmf.Retry
import ReticulumMf.Mf.Message
import ReticulumMf.Mf.Send
import ReticulumMf.Lib.Transition
import ReticulumMf.Lib.Threads
import ReticulumMf.Lxmf.LinkCache
import ReticulumMf.Lxmf.LinkLevels
import ReticulumMf.Rrc.Envelope
import ReticulumMf.Rrc.Hub
import ReticulumMf.Rrc.HubSteps
import ReticulumMf.Rrc.Registration
import ReticulumMf.Rrc.Membership
import ReticulumMf.Rrc.Limits
import ReticulumMf.Rrc.Nickname
import ReticulumMf.Rrc.Accept
import ReticulumMf.Rrc.LinkClose
import ReticulumMf.Rrc.Hello
import ReticulumMf.Rrc.Welcome
import ReticulumMf.Rrc.Client
import ReticulumMf.Rrc.ClientSteps
import ReticulumMf.Rrc.Dial
import ReticulumMf.Rrc.Disconnect
import ReticulumMf.Rrc.EnvelopeCodec
import ReticulumMf.Rrc.EnvelopeSize
import ReticulumMf.Rrc.Sessions
import ReticulumMf.Lib.Calls
import ReticulumMf.Rrc.Authentic
import ReticulumMf.Rrc.RateLimit
import ReticulumMf.Rrc.Relay
import ReticulumMf.Rrc.RelayCall
import ReticulumMf.Rrc.HubSize
import ReticulumMf.Rrc.Joint
import ReticulumMf.Rrc.Agreement
import ReticulumMf.Rrc.History
import ReticulumMf.Rrc.Traffic
import ReticulumMf.Rrc.Flood
import ReticulumMf.Rrc.ClientTraffic
import ReticulumMf.Rrc.Network
import ReticulumMf.Rrc.Handshake
import ReticulumMf.Rrc.Progress
import ReticulumMf.Rrc.Lifecycle
import ReticulumMf.Lxmf.StampSearch
import ReticulumMf.Lxmf.Directory
