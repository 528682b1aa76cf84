import TORdex.Core.Processor
import TORdex.Lib.Bytes

/-!
# The network processor

The header of a capture and the number of its packets.  The header is read in one byte order, the lengths of
the packets in the order that the magic number tells.
-/

namespace TORdex

/-- `u16::from_le_bytes` of two bytes, and `u32::from_le_bytes` of four. -/
def fromLeBytes (width : ℕ) (data : List UInt8) (pos : ℕ) : ℕ :=
  LittleEndian.ofBytes ((data.drop pos).take width)

/-- `u32::from_be_bytes` of four bytes. -/
def fromBeBytes (width : ℕ) (data : List UInt8) (pos : ℕ) : ℕ :=
  LittleEndian.ofBytes ((data.drop pos).take width).reverse

/-- The header of a capture file. -/
structure PcapHeader where
  versionMajor : ℕ
  versionMinor : ℕ
  thiszone : BitVec 32
  sigfigs : ℕ
  snaplen : ℕ
  network : ℕ
  linkType : String
  deriving DecidableEq

namespace NetworkProcessor

/-- The name of a link type. -/
def linkType (network : ℕ) : String :=
  match network with
  | 1 => "Ethernet"
  | 101 => "Raw IP"
  | 0 => "Null/Loopback"
  | 108 => "Linux SLL"
  | 113 => "Linux SLL2"
  | _ => "Unknown"

/-- The header at the beginning of a file. -/
def parsePcapGlobalHeader (data : List UInt8) : Option PcapHeader :=
  if data.length < 24 then none
  else
    let magic := fromLeBytes 4 data 0
    if magic = 0xA1B2C3D4 ∨ magic = 0xD4C3B2A1 then
      let network := fromLeBytes 4 data 20
      some {
        versionMajor := fromLeBytes 2 data 4
        versionMinor := fromLeBytes 2 data 6
        thiszone := BitVec.ofNat 32 (fromLeBytes 4 data 8)
        sigfigs := fromLeBytes 4 data 12
        snaplen := fromLeBytes 4 data 16
        network
        linkType := linkType network }
    else none

/-- The loop of `count_packets`. -/
def countFrom (swap : Bool) (data : List UInt8) (pos count : ℕ) : ℕ :=
  if pos + 16 ≤ data.length then
    let inclLen := if swap then fromBeBytes 4 data (pos + 8) else fromLeBytes 4 data (pos + 8)
    let pktLen := 16 + inclLen
    if pktLen = 16 then count
    else if pos + pktLen > data.length then count + 1
    else countFrom swap data (pos + pktLen) (count + 1)
  else count
termination_by data.length - pos

/-- The number of packets in a file. -/
def countPackets (data : List UInt8) : ℕ :=
  if data.length < 24 then 0
  else
    let magic := fromLeBytes 4 data 0
    countFrom (magic = 0xD4C3B2A1) data 24 0

/-- Describe a capture file. -/
def process (id : String) (data : List UInt8) (_contentType : Option String)
    (_metadata : HashMap String String) : Except ProcessorError (List ProcessedObservation) :=
  let capture :=
    match parsePcapGlobalHeader data with
    | some header =>
      let packetCount := toString (countPackets data)
      [(ProcessedObservation.new (id ++ "_link_type") "network.link_type" (textBytes header.linkType)
        "text/plain")
        |>.withMetadata "source_observation" id,
      (ProcessedObservation.new (id ++ "_packets") "network.packet_count" (textBytes packetCount)
        "text/plain")
        |>.withMetadata "count" packetCount
        |>.withMetadata "source_observation" id]
    | none => []
  let size := toString data.length
  let results := capture ++
    [(ProcessedObservation.new (id ++ "_size") "network.metadata" (textBytes size) "text/plain")
      |>.withMetadata "metric" "byte_size"
      |>.withMetadata "value" size
      |>.withMetadata "source_observation" id]
  if results.isEmpty then .error (.processingFailed "no pcap header detected") else .ok results

end NetworkProcessor

end TORdex
