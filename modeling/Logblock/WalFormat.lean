import Logblock.Proto
import Logblock.Stream

/-! Entries of the write-ahead log of `internal/wal`: a checksum, a 24-bit size that shares
its word with the type, and a body that depends on the type. -/
namespace Logblock
namespace Wal

open Bytes

/-- `"lblog\x31\x41\x59"`. -/
def headerMagic : List UInt8 := [0x6c,0x62,0x6c,0x6f,0x67,0x31,0x41,0x59]

/-- `"footer\x31\x41"`. -/
def footerMagic : List UInt8 := [0x66,0x6f,0x6f,0x74,0x65,0x72,0x31,0x41]

def maxWriteSize : ℕ := 2^22

def entryBaseSize : ℕ := 8

def errWriteTooBig : Error := .new "wal: write size too big"

def errWriterClosed : Error := .new "wal: writer closed"

def errCorruptedLog : Error := .new "wal: log corrupted"

def errInvalidIndex : Error := .new "invalid index"

inductive EntryType
  | data
  | trim
  | footer
  deriving DecidableEq

def EntryType.code : EntryType → UInt8
  | data => 0
  | trim => 1
  | footer => 2

/-- What a range of the device maps to. The source compares records by address; two that
are equal here cover the same range, so only the later one is still in a map. -/
structure LogRecord where
  logOffset : ℤ
  offset : ℤ
  length : ℤ
  zero : Bool
  deriving DecidableEq, Inhabited

structure LogEntry where
  header : List UInt8
  data : List UInt8
  readOff : ℕ

namespace LogEntry

def len (e : LogEntry) : ℕ := e.header.length+e.data.length

/-- The bytes that `WriteTo` and `Read` produce. -/
def bytes (e : LogEntry) : List UInt8 := e.header++e.data

@[simp] theorem length_bytes (e : LogEntry) : e.bytes.length = e.len := List.length_append

/-- `Read` into a buffer of `n` bytes: the bytes read, the entry afterwards and whether
the end was reached. -/
def read (e : LogEntry) (n : ℕ) : List UInt8 × LogEntry × Bool :=
  let head := (e.header.drop e.readOff).take n
  let readOff := e.readOff+head.length
  let body :=
    if head.length < n then (e.data.drop (readOff-e.header.length)).take (n-head.length) else []
  let readOff := readOff+body.length
  (head++body,{ e with readOff := readOff },readOff = e.len)

/-- The chunks in which a copy through a buffer of `n` bytes drains an entry. -/
def readChunks (n : ℕ) : ℕ → LogEntry → List (List UInt8)
  | 0, _ => []
  | fuel+1, e =>
    match e.read n with
    | (bs,_,true) => [bs]
    | (bs,e',false) => bs::readChunks n fuel e'

/-- One read returns the next bytes of the entry. -/
theorem read_eq {e : LogEntry} (h : e.readOff ≤ e.len) (n : ℕ) :
    e.read n = ((e.bytes.drop e.readOff).take n,{ e with readOff := min (e.readOff+n) e.len },
      decide (e.len ≤ e.readOff+n)) := by
  have hlen : e.len = e.header.length+e.data.length := rfl
  -- what is left of the header, and the data to read after it
  have hsplit : (e.bytes.drop e.readOff).take n = (e.header.drop e.readOff).take n++
      (if ((e.header.drop e.readOff).take n).length < n then
        (e.data.drop (e.readOff+((e.header.drop e.readOff).take n).length-e.header.length)).take
          (n-((e.header.drop e.readOff).take n).length) else []) := by
    rw [bytes,List.drop_append,List.take_append]
    congr 1
    split_ifs with hn
    · simp only [List.length_take,List.length_drop] at hn ⊢
      congr 1
      · omega
      · congr 1
        omega
    · simp only [List.length_take,List.length_drop] at hn ⊢
      rw [show n-(e.header.length-e.readOff) = 0 by omega,List.take_zero]
  have hcount : ((e.bytes.drop e.readOff).take n).length = min n (e.len-e.readOff) := by
    simp
  unfold read
  simp only
  rw [← hsplit]
  rw [hsplit,List.length_append] at hcount
  rw [add_assoc,hcount]
  refine Prod.ext rfl (Prod.ext ?_ ?_)
  · simp only [LogEntry.mk.injEq,true_and]
    omega
  · simp only [decide_eq_decide]
    omega

theorem flatten_readChunks {n : ℕ} (hn : 0 < n) (fuel : ℕ) (e : LogEntry) (h : e.readOff ≤ e.len)
    (hfuel : e.len-e.readOff < fuel) :
    (readChunks n fuel e).flatten = e.bytes.drop e.readOff := by
  induction fuel generalizing e with
  | zero => omega
  | succ fuel ih =>
    rw [readChunks,read_eq h]
    by_cases hend : e.len ≤ e.readOff+n
    · simp only [hend,decide_true,List.flatten_cons,List.flatten_nil,List.append_nil]
      exact List.take_of_length_le (by simp; omega)
    · simp only [hend,decide_false,List.flatten_cons]
      have hmin : min (e.readOff+n) e.len = e.readOff+n := by omega
      have hlen : ({ e with readOff := e.readOff+n } : LogEntry).len = e.len := rfl
      rw [hmin,ih _ (by rw [hlen]; simp only; omega) (by rw [hlen]; simp only; omega)]
      have : (e.bytes.drop (e.readOff+n)) = (e.bytes.drop e.readOff).drop n := by
        rw [List.drop_drop]
      exact (congrArg _ this).trans (List.take_append_drop n _)

end LogEntry

def makeLogEntry (pType : EntryType) (offset length : ℤ) (data : List UInt8) : LogEntry :=
  let packetSize := match pType with
    | .data => entryBaseSize+8+length.toNat
    | .trim => entryBaseSize+8+8
    | .footer => entryBaseSize
  let fields := match pType with
    | .data => leBytes 8 (toU64 offset)
    | .trim => leBytes 8 (toU64 offset)++leBytes 8 (toU64 length)
    | .footer => []
  -- the type overwrites the high byte of the size
  let head := leBytes 3 packetSize++[pType.code]++fields
  { header := leBytes 4 (crc32 (head++data))++head
    data := data
    readOff := 0 }

inductive ChecksumType
  | none
  | crc32IEEE
  deriving DecidableEq

/-- `pb.Header`. -/
structure Header where
  version : ℕ
  blockSize : ℕ
  align : ℕ
  checksumType : ChecksumType
  deriving DecidableEq

/-- The header of every log. -/
def header : Header := ⟨1,1,1,.crc32IEEE⟩

inductive IndexEntryType
  | invalid
  | write
  | trim
  | unknown (n : ℕ)
  deriving DecidableEq

/-- `pb.IndexEntry`. -/
structure IndexEntry where
  type : IndexEntryType
  offset : ℕ
  length : ℕ
  logOffset : ℕ
  deriving DecidableEq

def IndexEntry.Fits (e : IndexEntry) : Prop :=
  e.type = .write ∧ e.offset < 2^64 ∧ e.length < 2^64 ∧ e.logOffset < 2^64

/-- The marshalling of the two messages: short, and undone by unmarshalling. -/
structure Codec where
  marshalHeader : Header → List UInt8
  unmarshalHeader : List UInt8 → Option Header
  marshalEntry : IndexEntry → List UInt8
  unmarshalEntry : List UInt8 → Option IndexEntry
  header_roundTrip : unmarshalHeader (marshalHeader header) = some header
  header_length : (marshalHeader header).length ≤ 80
  entry_roundTrip : ∀ e, e.Fits → unmarshalEntry (marshalEntry e) = some e
  entry_length : ∀ e, (marshalEntry e).length ≤ 80

namespace Wire

def checksumCode : ChecksumType → ℕ
  | .none => 0
  | .crc32IEEE => 1

def typeCode : IndexEntryType → ℕ
  | .invalid => 0
  | .write => 1
  | .trim => 2
  | .unknown n => n

def typeOf : ℕ → IndexEntryType
  | 0 => .invalid
  | 1 => .write
  | 2 => .trim
  | n => .unknown n

def marshalHeader (h : Header) : List UInt8 :=
  Proto.encode [h.version,h.blockSize,h.align,checksumCode h.checksumType]

def unmarshalHeader (bs : List UInt8) : Option Header :=
  (Proto.parse bs.length bs).map fun fs =>
    ⟨Proto.field fs 1,Proto.field fs 2,Proto.field fs 3,
      if Proto.field fs 4 = 0 then .none else .crc32IEEE⟩

def marshalEntry (e : IndexEntry) : List UInt8 :=
  Proto.encode [typeCode e.type,e.offset,e.length,e.logOffset]

def unmarshalEntry (bs : List UInt8) : Option IndexEntry :=
  (Proto.parse bs.length bs).map fun fs =>
    ⟨typeOf (Proto.field fs 1),Proto.field fs 2,Proto.field fs 3,Proto.field fs 4⟩

/-- A message of four fields is read back, also where fields are left out. -/
theorem field_sent (a b c d : ℕ) : Proto.field (Proto.sent 1 [a,b,c,d]) 1 = a ∧
    Proto.field (Proto.sent 1 [a,b,c,d]) 2 = b ∧ Proto.field (Proto.sent 1 [a,b,c,d]) 3 = c ∧
    Proto.field (Proto.sent 1 [a,b,c,d]) 4 = d :=
  ⟨Proto.field_sent _ 0,Proto.field_sent _ 1,Proto.field_sent _ 2,Proto.field_sent _ 3⟩

end Wire

/-- The codec of the wire format itself. -/
def wireCodec : Codec where
  marshalHeader := Wire.marshalHeader
  unmarshalHeader := Wire.unmarshalHeader
  marshalEntry := Wire.marshalEntry
  unmarshalEntry := Wire.unmarshalEntry
  header_roundTrip := by decide
  header_length := Proto.length_encode_le _
  entry_roundTrip e he := by
    obtain ⟨ht,ho,hl,hlo⟩ := he
    obtain ⟨h₁,h₂,h₃,h₄⟩ := Wire.field_sent 1 e.offset e.length e.logOffset
    rw [Wire.unmarshalEntry,Wire.marshalEntry,ht,Wire.typeCode,
      Proto.parse_encode (by simp) (by simpa using ⟨ho,hl,hlo⟩),Option.map_some,h₁,h₂,h₃,h₄]
    rw [Wire.typeOf,← ht]
  entry_length e := Proto.length_encode_le _

section DataEntry

variable (off : ℤ) (p : List UInt8)

/-- The entry of a write. -/
def dataEntry : LogEntry := makeLogEntry .data off p.length p

/-- What the checksum of the entry covers. -/
def dataPacket : List UInt8 := leBytes 3 (16+p.length)++[0]++leBytes 8 (toU64 off)++p

theorem dataEntry_bytes :
    (dataEntry off p).bytes = leBytes 4 (crc32 (dataPacket off p))++dataPacket off p := by
  simp [dataEntry,makeLogEntry,LogEntry.bytes,dataPacket,EntryType.code,entryBaseSize]

@[simp] theorem dataEntry_header_length : (dataEntry off p).header.length = 16 := by
  simp [dataEntry,makeLogEntry]

@[simp] theorem dataEntry_len : (dataEntry off p).len = 16+p.length := by
  rw [LogEntry.len,dataEntry_header_length]
  rfl

end DataEntry

/-- The entry that ends the writes of a closed log. -/
def footerEntry : LogEntry := makeLogEntry .footer 0 0 []

@[simp] theorem footerEntry_len : footerEntry.len = 8 := by
  simp [footerEntry,makeLogEntry,LogEntry.len]

end Wal
end Logblock
