import Mathlib.Data.List.TakeWhile
import TORdex.Processors.Network

/-!
# Counting the packets of captures

A capture is a header and packets, written in one of the two byte orders.  The packets of a file are counted
up to the first one without a payload, and the header is read as if it were written in little-endian order.
-/

namespace TORdex

open Utf8 LittleEndian

/-! ## The file format -/

/-- The order of the bytes of a number. -/
inductive ByteOrder where
  | little
  | big
  deriving DecidableEq

/-- A number in so many bytes. -/
def ByteOrder.word (order : ByteOrder) (width n : ℕ) : List UInt8 :=
  match order with
  | .little => toBytes width n
  | .big => (toBytes width n).reverse

/-- A packet; its payload has a length that fits into its header. -/
structure Packet where
  tsSec : UInt32
  tsUsec : UInt32
  origLen : UInt32
  payload : List UInt8
  fits : payload.length < 2 ^ 32

/-- The header of a capture, and its packets. -/
structure Capture where
  order : ByteOrder
  versionMajor : UInt16
  versionMinor : UInt16
  thiszone : BitVec 32
  sigfigs : UInt32
  snaplen : UInt32
  network : UInt32
  packets : List Packet

/-- The header of a packet in bytes. -/
def Packet.header (order : ByteOrder) (p : Packet) : List UInt8 :=
  order.word 4 p.tsSec.toNat ++ order.word 4 p.tsUsec.toNat ++ order.word 4 p.payload.length ++
    order.word 4 p.origLen.toNat

/-- A packet in bytes. -/
def Packet.encode (order : ByteOrder) (p : Packet) : List UInt8 := p.header order ++ p.payload

/-- Packets in bytes. -/
def encodePackets (order : ByteOrder) (packets : List Packet) : List UInt8 :=
  packets.flatMap (Packet.encode order)

namespace Capture

/-- The header of a capture in bytes. -/
def header (c : Capture) : List UInt8 :=
  c.order.word 4 0xA1B2C3D4 ++ c.order.word 2 c.versionMajor.toNat ++ c.order.word 2 c.versionMinor.toNat ++
    c.order.word 4 c.thiszone.toNat ++ c.order.word 4 c.sigfigs.toNat ++ c.order.word 4 c.snaplen.toNat ++
    c.order.word 4 c.network.toNat

/-- A capture in bytes. -/
def encode (c : Capture) : List UInt8 := c.header ++ encodePackets c.order c.packets

end Capture

section Words

variable {order : ByteOrder} {p : Packet} {x y : List UInt8}

@[simp] theorem ByteOrder.length_word (order : ByteOrder) (width n : ℕ) :
    (order.word width n).length = width := by
  cases order with
  | little => exact length_toBytes width n
  | big => exact List.length_reverse.trans (length_toBytes width n)

@[simp] theorem Packet.length_header : (p.header order).length = 16 := by simp [Packet.header]

@[simp] theorem Packet.length_encode :
    (p.encode order).length = 16 + p.payload.length := by simp [Packet.encode]

@[simp] theorem Capture.length_header (c : Capture) : c.header.length = 24 := by simp [Capture.header]

theorem take_drop_word {w : List UInt8} {n : ℕ} (h : w.length = n) :
    ((x ++ (w ++ y)).drop x.length).take n = w := by
  rw [List.drop_left, List.take_left' h]

theorem fromLeBytes_word {width n : ℕ} (small : n < 256 ^ width) :
    fromLeBytes width (x ++ (ByteOrder.word .little width n ++ y)) x.length = n := by
  rw [fromLeBytes, take_drop_word (by simp)]
  exact ofBytes_toBytes_of_lt small

theorem fromBeBytes_word {width n : ℕ} (small : n < 256 ^ width) :
    fromBeBytes width (x ++ (ByteOrder.word .big width n ++ y)) x.length = n := by
  rw [fromBeBytes, take_drop_word (by simp)]
  exact (congrArg ofBytes (List.reverse_reverse _)).trans (ofBytes_toBytes_of_lt small)

end Words

/-! ## Counting -/

section Counting

variable {order : ByteOrder} {p : Packet} {packets : List Packet} {front rest : List UInt8} {k : ℕ}

/-- The length of the payload, in the byte order that the magic number tells. -/
theorem inclLen_eq :
    (if decide (order = .big) then fromBeBytes 4 (front ++ (p.header order ++ rest)) (front.length + 8)
    else fromLeBytes 4 (front ++ (p.header order ++ rest)) (front.length + 8)) = p.payload.length := by
  have split : front ++ (p.header order ++ rest) =
      (front ++ order.word 4 p.tsSec.toNat ++ order.word 4 p.tsUsec.toNat) ++
      (order.word 4 p.payload.length ++ (order.word 4 p.origLen.toNat ++ rest)) := by
    simp [Packet.header]
  have place : (front ++ order.word 4 p.tsSec.toNat ++ order.word 4 p.tsUsec.toNat).length =
      front.length + 8 := by
    simp
  have small : p.payload.length < 256 ^ 4 := p.fits.trans_eq (by norm_num)
  rw [split, ← place]
  cases order with
  | little => exact fromLeBytes_word small
  | big => exact fromBeBytes_word small

/-- A round of the loop on the header of a packet. -/
theorem countFrom_header :
    NetworkProcessor.countFrom (order = .big) (front ++ (p.header order ++ rest)) front.length k =
    if p.payload = [] then k
    else if rest.length < p.payload.length then k + 1
    else NetworkProcessor.countFrom (order = .big) (front ++ (p.header order ++ rest))
      (front.length + (16 + p.payload.length)) (k + 1) := by
  have room : front.length + 16 ≤ (front ++ (p.header order ++ rest)).length := by
    simp only [List.length_append, Packet.length_header]
    omega
  have beyond : front.length + (16 + p.payload.length) > (front ++ (p.header order ++ rest)).length ↔
      rest.length < p.payload.length := by
    simp only [List.length_append, Packet.length_header]
    omega
  rw [NetworkProcessor.countFrom, if_pos room]
  dsimp only
  rw [inclLen_eq]
  by_cases empty : p.payload = []
  · rw [if_pos (by rw [empty]; rfl), if_pos empty]
  · have pos : p.payload.length ≠ 0 := fun zero => empty (List.length_eq_zero_iff.1 zero)
    rw [if_neg (by omega), if_neg empty]
    simp only [beyond]

theorem countFrom_stop {swap : Bool} {data : List UInt8} {pos : ℕ} (h : data.length < pos + 16) :
    NetworkProcessor.countFrom swap data pos k = k := by
  rw [NetworkProcessor.countFrom, if_neg (by omega)]

/-- Packets are counted up to the first one without a payload. -/
theorem countFrom_packets (order : ByteOrder) (packets : List Packet) (front rest : List UInt8) (k : ℕ) :
    NetworkProcessor.countFrom (order = .big)
      (front ++ (encodePackets order packets ++ rest)) front.length k =
      if ∀ p ∈ packets, p.payload ≠ [] then
        NetworkProcessor.countFrom (order = .big) (front ++ (encodePackets order packets ++ rest))
          (front ++ encodePackets order packets).length (k + packets.length)
      else k + (packets.takeWhile fun p => p.payload ≠ []).length := by
  induction packets generalizing front k with
  | nil => simp [encodePackets]
  | cons p packets ih =>
    have shape : front ++ (encodePackets order (p :: packets) ++ rest) =
        front ++ (p.header order ++ (p.payload ++ (encodePackets order packets ++ rest))) := by
      simp [encodePackets, Packet.encode]
    have shape' : front ++ (encodePackets order (p :: packets) ++ rest) =
        (front ++ p.encode order) ++ (encodePackets order packets ++ rest) := by
      simp [encodePackets]
    have place : front.length + (16 + p.payload.length) = (front ++ p.encode order).length := by simp
    have last : (front ++ encodePackets order (p :: packets)).length =
        (front ++ p.encode order ++ encodePackets order packets).length := by simp [encodePackets]
    rw [shape, countFrom_header, ← shape]
    by_cases empty : p.payload = []
    · simp [empty]
    · have room : ¬ (p.payload ++ (encodePackets order packets ++ rest)).length < p.payload.length := by simp
      rw [if_neg empty, if_neg room, place, shape', ih (front ++ p.encode order) (k + 1), last]
      simp only [List.forall_mem_cons, ne_eq, empty, not_false_eq_true, true_and, List.length_cons]
      split_ifs
      · rw [Nat.add_right_comm, Nat.add_assoc]
      · rw [List.takeWhile_cons_of_pos (by simpa using empty), List.length_cons]
        omega

theorem length_takeWhile_lt {q : Packet → Prop} [DecidablePred q] (h : ¬ ∀ p ∈ packets, q p) :
    (packets.takeWhile fun p => q p).length < packets.length := by
  refine lt_of_le_of_ne (List.takeWhile_prefix _).length_le fun same => h fun p hp => ?_
  have all := List.takeWhile_eq_self_iff.1 ((List.takeWhile_prefix _).eq_of_length same)
  exact of_decide_eq_true (all p hp)

end Counting

/-! ## Processing -/

section Processing

open NetworkProcessor

variable {c : Capture} {id : String} {contentType : Option String} {metadata : HashMap String String}

/-- A number that is read in the other byte order than it was written. -/
def swapBytes (n : ℕ) : ℕ := ofBytes (toBytes 4 n).reverse

/-- The number of the link type, as it is read in little-endian order. -/
def Capture.networkRead (c : Capture) : ℕ :=
  if c.order = .little then c.network.toNat else swapBytes c.network.toNat

theorem magic_eq (c : Capture) (rest : List UInt8) :
    fromLeBytes 4 (c.header ++ rest) 0 = if c.order = .big then 0xD4C3B2A1 else 0xA1B2C3D4 := by
  have read : fromLeBytes 4 (c.header ++ rest) 0 = ofBytes (c.order.word 4 0xA1B2C3D4) := by
    have first : (c.header ++ rest).take 4 = c.order.word 4 0xA1B2C3D4 := by
      simp only [Capture.header, List.append_assoc]
      exact List.take_left' (by simp)
    rw [fromLeBytes, List.drop_zero, first]
  rw [read]
  cases c.order with
  | little => simp [ByteOrder.word, toBytes, ofBytes]
  | big => simp [ByteOrder.word, toBytes, ofBytes]

theorem network_eq (c : Capture) (rest : List UInt8) :
    fromLeBytes 4 (c.header ++ rest) 20 = c.networkRead := by
  obtain ⟨front, length, split⟩ : ∃ front : List UInt8, front.length = 20 ∧
      c.header ++ rest = front ++ (c.order.word 4 c.network.toNat ++ rest) := by
    refine ⟨c.order.word 4 0xA1B2C3D4 ++ c.order.word 2 c.versionMajor.toNat ++
      c.order.word 2 c.versionMinor.toNat ++ c.order.word 4 c.thiszone.toNat ++
      c.order.word 4 c.sigfigs.toNat ++ c.order.word 4 c.snaplen.toNat, by simp, ?_⟩
    simp [Capture.header]
  have read : fromLeBytes 4 (c.header ++ rest) 20 = ofBytes (c.order.word 4 c.network.toNat) := by
    rw [split, fromLeBytes, ← length]
    exact congrArg ofBytes (take_drop_word (by simp))
  have small : c.network.toNat < 256 ^ 4 := c.network.toNat_lt.trans_eq (by norm_num)
  rw [read, Capture.networkRead]
  cases c.order with
  | little => exact (ofBytes_toBytes_of_lt small).trans (if_pos rfl).symm
  | big => exact (if_neg (by decide)).symm

/-- What the processor reports of a file with the header of a capture. -/
theorem process_header (c : Capture) (rest : List UInt8) (id : String) (contentType : Option String)
    (metadata : HashMap String String) : ∃ results,
    process id (c.header ++ rest) contentType metadata = .ok results ∧
      (results.filter fun o => o.kind = "network.link_type").map ProcessedObservation.data =
        [textBytes (linkType c.networkRead)] ∧
      (results.filter fun o => o.kind = "network.packet_count").map ProcessedObservation.data =
        [textBytes (toString (countFrom (c.order = .big) (c.header ++ rest) 24 0))] := by
  have long : ¬ (c.header ++ rest).length < 24 := by simp
  have parsed : ∃ header, parsePcapGlobalHeader (c.header ++ rest) = some header ∧
      header.linkType = linkType c.networkRead := by
    rw [parsePcapGlobalHeader, if_neg long]
    dsimp only
    rw [magic_eq, network_eq]
    refine ⟨_, if_pos ?_, rfl⟩
    split_ifs <;> decide
  have counted : countPackets (c.header ++ rest) = countFrom (c.order = .big) (c.header ++ rest) 24 0 := by
    rw [countPackets, if_neg long]
    dsimp only
    rw [magic_eq]
    cases c.order with
    | little => rfl
    | big => rfl
  obtain ⟨header, found, link⟩ := parsed
  rw [process, found]
  dsimp only
  rw [counted, link]
  refine ⟨_, rfl, ?_, ?_⟩
  · simp [ProcessedObservation.new, ProcessedObservation.withMetadata]
  · simp [ProcessedObservation.new, ProcessedObservation.withMetadata]

theorem toString_nat_injective : Function.Injective (toString : ℕ → String) := by
  intro m n same
  have digits : Nat.toDigits 10 m = Nat.toDigits 10 n := by
    rw [← Nat.toList_repr, ← Nat.toList_repr]
    exact congrArg String.toList same
  rw [← Nat.ofDigitChars_ten_toDigits (n := m), ← Nat.ofDigitChars_ten_toDigits (n := n), digits]

/-- The observations of a file tell a number of packets. -/
def ReportsCount (file : List UInt8) (n : ℕ) : Prop := ∀ id contentType metadata, ∃ results,
  process id file contentType metadata = .ok results ∧
    (results.filter fun o => o.kind = "network.packet_count").map ProcessedObservation.data =
      [textBytes (toString n)]

/-- The observations of a file tell a link type. -/
def ReportsLink (file : List UInt8) (network : ℕ) : Prop := ∀ id contentType metadata, ∃ results,
  process id file contentType metadata = .ok results ∧
    (results.filter fun o => o.kind = "network.link_type").map ProcessedObservation.data =
      [textBytes (linkType network)]

theorem reportsCount_iff (c : Capture) (rest : List UInt8) (n : ℕ) :
    ReportsCount (c.header ++ rest) n ↔ countFrom (c.order = .big) (c.header ++ rest) 24 0 = n := by
  constructor
  · intro reports
    obtain ⟨results, run, reported⟩ := reports "" none ∅
    obtain ⟨results', run', -, counted⟩ := process_header c rest "" none ∅
    obtain rfl : results = results' := Except.ok.inj (run.symm.trans run')
    rw [counted] at reported
    exact toString_nat_injective (textBytes_injective (List.singleton_inj.1 reported))
  · rintro rfl id contentType metadata
    obtain ⟨results, run, -, counted⟩ := process_header c rest id contentType metadata
    exact ⟨results, run, counted⟩

theorem reportsLink_iff (c : Capture) (rest : List UInt8) (network : ℕ) :
    ReportsLink (c.header ++ rest) network ↔ linkType c.networkRead = linkType network := by
  constructor
  · intro reports
    obtain ⟨results, run, reported⟩ := reports "" none ∅
    obtain ⟨results', run', link, -⟩ := process_header c rest "" none ∅
    obtain rfl : results = results' := Except.ok.inj (run.symm.trans run')
    rw [link] at reported
    exact textBytes_injective (List.singleton_inj.1 reported)
  · intro same id contentType metadata
    obtain ⟨results, run, link, -⟩ := process_header c rest id contentType metadata
    exact ⟨results, run, by rw [link, same]⟩

/-- A file is cut inside its last packet. -/
structure CutInside (c : Capture) (complete : List Packet) (last : Packet) (part : List UInt8) : Prop where
  packets : c.packets = complete ++ [last]
  starts : part <+: last.encode c.order
  nonempty : part ≠ []
  shorter : part.length < (last.encode c.order).length

/-- The packet that is cut counts as soon as its header is whole. -/
theorem countFrom_cut {complete : List Packet} {last : Packet} {part front : List UInt8} {k : ℕ}
    (cut : CutInside c complete last part) :
    countFrom (c.order = .big) (front ++ part) front.length k = if part.length < 16 then k else k + 1 := by
  split_ifs with short
  · exact countFrom_stop (by rw [List.length_append]; omega)
  · have whole : last.header c.order <+: part := by
      refine List.prefix_of_prefix_length_le (List.prefix_append _ _) cut.starts ?_
      rw [Packet.length_header]
      omega
    obtain ⟨rest, rfl⟩ := whole
    have less : rest.length < last.payload.length := by
      have shorter := cut.shorter
      rw [List.length_append, Packet.length_header, Packet.length_encode] at shorter
      omega
    have text : last.payload ≠ [] := by
      intro empty
      rw [empty] at less
      exact Nat.not_lt_zero _ less
    rw [countFrom_header, if_neg text, if_pos less]

theorem reportsCount_encode_iff (c : Capture) (n : ℕ) : ReportsCount c.encode n ↔
    (if ∀ p ∈ c.packets, p.payload ≠ [] then c.packets.length
      else (c.packets.takeWhile fun p => p.payload ≠ []).length) = n := by
  have ends (k : ℕ) : countFrom (c.order = .big) c.encode c.encode.length k = k := countFrom_stop (by omega)
  have counted := countFrom_packets c.order c.packets c.header [] 0
  rw [List.append_nil, c.length_header, ← Capture.encode, ends, Nat.zero_add, Nat.zero_add] at counted
  rw [← counted]
  exact reportsCount_iff c _ n

theorem reportsCount_cut_iff {complete : List Packet} {last : Packet} {part : List UInt8}
    (cut : CutInside c complete last part) (n : ℕ) :
    ReportsCount (c.header ++ (encodePackets c.order complete ++ part)) n ↔
      (if ∀ p ∈ complete, p.payload ≠ [] then
          if part.length < 16 then complete.length else complete.length + 1
        else (complete.takeWhile fun p => p.payload ≠ []).length) = n := by
  have counted := countFrom_packets c.order complete c.header part 0
  rw [c.length_header, Nat.zero_add, Nat.zero_add, ← List.append_assoc, countFrom_cut cut] at counted
  rw [reportsCount_iff, ← List.append_assoc, counted]

/-- **Counting the packets of captures**, and of captures that are cut inside their last packet. -/
theorem reports_iff (c : Capture) :
    (ReportsCount c.encode c.packets.length ∧ ReportsLink c.encode c.network.toNat ↔
      (∀ p ∈ c.packets, p.payload ≠ []) ∧
        (c.order = .little ∨ linkType (swapBytes c.network.toNat) = linkType c.network.toNat)) ∧
    ∀ complete last part, CutInside c complete last part →
      (ReportsCount (c.header ++ (encodePackets c.order complete ++ part)) complete.length ↔
        (∀ p ∈ complete, p.payload ≠ []) ∧ part.length < 16) := by
  refine ⟨and_congr ?_ ?_, fun complete last part cut => ?_⟩
  · rw [reportsCount_encode_iff]
    split_ifs with all
    · exact iff_of_true rfl all
    · exact iff_of_false (length_takeWhile_lt all).ne all
  · rw [Capture.encode, reportsLink_iff, Capture.networkRead]
    cases c.order with
    | little => simp
    | big => simp
  · rw [reportsCount_cut_iff cut]
    split_ifs with all short
    · exact iff_of_true rfl ⟨all, short⟩
    · exact iff_of_false (Nat.succ_ne_self _) fun h => short h.2
    · exact iff_of_false (length_takeWhile_lt all).ne fun h => all h.1

/-- An Ethernet capture in big-endian order with an empty packet. -/
def emptyPacket : Capture where
  order := .big
  versionMajor := 2
  versionMinor := 4
  thiszone := 0
  sigfigs := 0
  snaplen := 65535
  network := 1
  packets := [⟨0, 0, 0, [], by decide⟩]

/-- A capture whose packet is not empty. -/
def onePacket : Capture := { emptyPacket with packets := [⟨0, 0, 1, [7], by decide⟩] }

/-- The file ends after the first byte of the packet. -/
theorem reports_iff_cut : ReportsCount (onePacket.header ++ (encodePackets onePacket.order [] ++ [0])) 0 := by
  have inside : CutInside onePacket [] ⟨0, 0, 1, [7], by decide⟩ [0] := ⟨rfl, ⟨_, rfl⟩, by decide, by decide⟩
  exact ((reports_iff onePacket).2 [] _ [0] inside).2 ⟨List.forall_mem_nil _, by decide⟩

/-- The empty packet is not counted, the link type is not read, and a packet without its data counts. -/
theorem not_reports : ¬ ReportsCount emptyPacket.encode emptyPacket.packets.length ∧
    ¬ ReportsLink emptyPacket.encode emptyPacket.network.toNat ∧
    ∃ (c : Capture) (last : Packet) (part : List UInt8), CutInside c [] last part ∧
      ¬ ReportsCount (c.header ++ (encodePackets c.order [] ++ part)) 0 := by
  let last : Packet := ⟨0, 0, 1, [7], by decide⟩
  have inside : CutInside onePacket [] last (last.header .big) :=
    ⟨rfl, List.prefix_append _ _, by decide, by decide⟩
  refine ⟨?_, ?_, _, _, _, inside, ?_⟩
  · rw [reportsCount_encode_iff]
    decide
  · rw [Capture.encode, reportsLink_iff]
    decide
  · rw [reportsCount_cut_iff inside]
    decide

end Processing

end TORdex
