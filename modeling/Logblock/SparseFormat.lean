import Logblock.Loop
import Logblock.Stream
import Logblock.Proto

/-! The sparse table: its builder, its file format, and its reader. The index has two levels,
ranges of at most 64 entries and entries of at most 127 blocks; only the ranges say where their
data is. -/
namespace Logblock
namespace Sparse

open Loop Bytes

def maxRangeEntries : ℕ := 64
def maxEntryLength : ℕ := 2^7-1
def rangeEntrySize : ℕ := 16
def blockEntrySize : ℕ := 3
def maxBlocks : ℕ := 2^48

/-- The text `sparseblock` and five digits of pi. -/
def magic : List UInt8 :=
  [0x73,0x70,0x61,0x72,0x73,0x65,0x62,0x6c,0x6f,0x63,0x6b,0x31,0x41,0x59,0x26,0x53]

/-- A range of blocks. Fields in blocks. -/
structure RangeEntry where
  startOffset : ℕ
  dataOffset : ℕ
  numEntries : ℕ
  deriving DecidableEq

/-- The count of entries takes the place of a byte that the 48-bit offset leaves zero. -/
def RangeEntry.marshal (e : RangeEntry) : List UInt8 :=
  (leBytes 8 (e.startOffset%2^48)++leBytes 8 (e.dataOffset%2^48)).set 6 (UInt8.ofNat e.numEntries)

def RangeEntry.unmarshal (buf : List UInt8) : Exec RangeEntry :=
  if buf.length < 16 then .error (.panic "slice bounds out of range")
  else .ok ⟨leNat (buf.take 8)%2^48,leNat ((buf.drop 8).take 8)%2^48,(buf.getD 6 0).toNat⟩

/-- A run of blocks within a range. -/
structure BlockEntry where
  offset : ℕ
  lengthType : ℕ
  deriving DecidableEq

def BlockEntry.marshal (e : BlockEntry) : List UInt8 :=
  leBytes 2 e.offset++[UInt8.ofNat e.lengthType]

def BlockEntry.unmarshal (buf : List UInt8) : Exec BlockEntry :=
  if buf.length < 3 then .error (.panic "index out of range")
  else .ok ⟨(buf.getD 0 0).toNat+256*(buf.getD 1 0).toNat,(buf.getD 2 0).toNat⟩

/-- `setLengthType` for data. -/
def lengthType (length : ℕ) : Exec ℕ :=
  if maxEntryLength < length then .error (.panic "length too big") else .ok (length*2%2^8)

def BlockEntry.length (e : BlockEntry) : ℕ := e.lengthType/2

structure Header where
  version : ℕ
  blockSize : ℕ
  numRangeEntries : ℕ
  rangeEntrySize : ℕ
  numBlockEntries : ℕ
  blockEntrySize : ℕ
  totalBlocks : ℕ
  totalDataBlocks : ℕ
  endBlock : ℕ
  deriving DecidableEq

/-- The fields are words of 32 and 64 bits. -/
structure Header.Fits (h : Header) : Prop where
  version : h.version < 2^32
  blockSize : h.blockSize < 2^32
  numRangeEntries : h.numRangeEntries < 2^32
  rangeEntrySize : h.rangeEntrySize < 2^32
  numBlockEntries : h.numBlockEntries < 2^32
  blockEntrySize : h.blockEntrySize < 2^32
  totalBlocks : h.totalBlocks < 2^64
  totalDataBlocks : h.totalDataBlocks < 2^64
  endBlock : h.endBlock < 2^64

/-- The marshalling of the header: short, and undone by unmarshalling. -/
structure HeaderCodec where
  marshal : Header → List UInt8
  unmarshal : List UInt8 → Option Header
  roundTrip : ∀ h, h.Fits → unmarshal (marshal h) = some h
  length_le : ∀ h, (marshal h).length ≤ 200

namespace Wire

/-- The field numbers of the message are not in the order of its declaration. -/
def marshal (h : Header) : List UInt8 :=
  Proto.encode [h.version,h.blockSize,h.numRangeEntries,h.numBlockEntries,h.totalBlocks,
    h.totalDataBlocks,h.endBlock,h.rangeEntrySize,h.blockEntrySize]

def unmarshal (bs : List UInt8) : Option Header :=
  (Proto.parse bs.length bs).map fun fs =>
    { version := Proto.field fs 1%2^32
      blockSize := Proto.field fs 2%2^32
      numRangeEntries := Proto.field fs 3%2^32
      numBlockEntries := Proto.field fs 4%2^32
      totalBlocks := Proto.field fs 5
      totalDataBlocks := Proto.field fs 6
      endBlock := Proto.field fs 7
      rangeEntrySize := Proto.field fs 8%2^32
      blockEntrySize := Proto.field fs 9%2^32 }

end Wire

/-- The codec of the wire format itself. -/
def wireCodec : HeaderCodec where
  marshal := Wire.marshal
  unmarshal := Wire.unmarshal
  roundTrip h hfits := by
    obtain ⟨h₁,h₂,h₃,h₄,h₅,h₆,h₇,h₈,h₉⟩ := hfits
    have hfield := fun i => Proto.field_sent [h.version,h.blockSize,h.numRangeEntries,
      h.numBlockEntries,h.totalBlocks,h.totalDataBlocks,h.endBlock,h.rangeEntrySize,
      h.blockEntrySize] i
    rw [Wire.unmarshal,Wire.marshal,Proto.parse_encode (by simp) (by
      simp only [List.forall_mem_cons]
      exact ⟨by omega,by omega,by omega,by omega,h₇,h₈,h₉,by omega,by omega,by simp⟩),
      Option.map_some,hfield 0,hfield 1,hfield 2,hfield 3,hfield 4,hfield 5,hfield 6,hfield 7,
      hfield 8]
    simp only [List.getD_cons_zero,List.getD_cons_succ,Nat.mod_eq_of_lt h₁,Nat.mod_eq_of_lt h₂,
      Nat.mod_eq_of_lt h₃,Nat.mod_eq_of_lt h₄,Nat.mod_eq_of_lt h₅,Nat.mod_eq_of_lt h₆]
  length_le _ := (Proto.length_encode_le _).trans (by simp)

/-- A call of `AddBlocks` with data: the blocks, and what the reader passed with it delivers. -/
structure IndexEntry where
  offset : ℕ
  length : ℕ
  data : List UInt8

structure Builder where
  blockSize : ℕ
  entries : List IndexEntry
  dataOffset : ℕ
  ranges : List RangeEntry
  blockEntryBuf : List UInt8
  totalBlocks : ℕ
  totalDataBlocks : ℕ
  prevEnd : ℕ

namespace Builder

def new (blockSize : ℕ) : Builder := ⟨blockSize,[],0,[],[],0,0,0⟩

/-- The part of the builder that the loop of `AddBlocks` changes. The open range is kept apart
from the ones before it. -/
structure IndexState where
  ranges : List RangeEntry
  currRange : RangeEntry
  blockEntryBuf : List UInt8
  dataOffset : ℕ

/-- One pass of the loop: the entry of at most 127 blocks at `blockOffset`, in a new range if the
open one is full or starts too far back. -/
def addEntry (s : IndexState) (blockOffset eLen : ℕ) : Exec IndexState := do
  let s :=
    if maxRangeEntries ≤ s.currRange.numEntries ∨ 65535 < blockOffset-s.currRange.startOffset then
      {s with ranges := s.ranges++[s.currRange],currRange := ⟨blockOffset,s.dataOffset,0⟩}
    else s
  let lengthType ← lengthType eLen
  let be : BlockEntry := ⟨(blockOffset-s.currRange.startOffset)%2^16,lengthType⟩
  .ok {s with
    currRange := {s.currRange with numEntries := s.currRange.numEntries+1}
    blockEntryBuf := s.blockEntryBuf++be.marshal
    dataOffset := s.dataOffset+eLen}

/-- The loop of `AddBlocks`, with `left` blocks to go; every pass takes at least one of them. -/
def addEntries : ℕ → IndexState → ℕ → ℕ → Exec IndexState
  | 0, s, _, _ => .ok s
  | fuel+1, s, blockOffset, left =>
    if left = 0 then .ok s
    else do
      let s ← addEntry s blockOffset (min left maxEntryLength)
      addEntries fuel s (blockOffset+min left maxEntryLength) (left-min left maxEntryLength)

def addBlocks (b : Builder) (offset length : ℤ) (r : List UInt8) : Exec Builder :=
  if offset < 0 ∨ length < 0 then .error (.panic "offset < 0 || length < 0")
  else
    let offset := offset.toNat
    let length := length.toNat
    if maxBlocks < length then .error (.panic "sparseblock/Builder: Entry too big")
    else if maxBlocks < b.dataOffset+length then
      .error (.panic "sparseblock/Builder: file exceeds max blocks")
    else if offset < b.prevEnd then
      .error (.panic s!"offset {offset} is before previous end {b.prevEnd}")
    else if length = 0 then .ok b
    else do
      let s : IndexState :=
        { ranges := b.ranges.dropLast
          currRange := b.ranges.getLastD ⟨offset,0,0⟩
          blockEntryBuf := b.blockEntryBuf
          dataOffset := b.dataOffset }
      let s ← addEntries length s offset length
      .ok {b with
        entries := b.entries++[⟨offset,length,r⟩]
        dataOffset := s.dataOffset
        ranges := s.ranges++[s.currRange]
        blockEntryBuf := s.blockEntryBuf
        totalBlocks := b.totalBlocks+length
        totalDataBlocks := b.totalDataBlocks+length
        prevEnd := offset+length}

def writeIndex (b : Builder) : List UInt8 := b.ranges.flatMap RangeEntry.marshal++b.blockEntryBuf

def header (b : Builder) : Header where
  version := 1
  blockSize := b.blockSize%2^32
  numRangeEntries := b.ranges.length%2^32
  rangeEntrySize := Sparse.rangeEntrySize
  numBlockEntries := b.blockEntryBuf.length/Sparse.blockEntrySize%2^32
  blockEntrySize := Sparse.blockEntrySize
  totalBlocks := b.totalBlocks
  totalDataBlocks := b.totalDataBlocks
  endBlock := b.prevEnd

/-- The data copy loop of `Build`: through a limited reader, which gives nothing if the limit is
not positive. -/
def copyData (blockSize : ℕ) : List IndexEntry → Except Error (List UInt8)
  | [] => .ok []
  | e::es => do
    let byteLength := i64 (e.length*blockSize)
    let bs := e.data.take byteLength.toNat
    if (bs.length : ℤ) ≠ byteLength then .error (.new "sparseblock/Builder: short read")
    else
      let rest ← copyData blockSize es
      .ok (bs++rest)

/-- The bytes that `Build` writes. The blocks written are those of the entries, which is what the
builder has counted. -/
def build (codec : HeaderCodec) (b : Builder) : Except Error (List UInt8) := do
  let headerBuf := codec.marshal b.header
  let data ← copyData b.blockSize b.entries
  .ok (magic++leBytes 4 headerBuf.length++headerBuf++b.writeIndex++data)

end Builder

/-- A parsed range, with the index of its first entry. -/
structure ParsedRange extends RangeEntry where
  firstEntryIndex : ℕ

structure Reader where
  r : List UInt8
  header : Header
  dataOffset : ℤ
  ranges : List ParsedRange
  entryBuf : List UInt8

/-- A slice of a buffer. -/
def slice (buf : List UInt8) (off n : ℕ) : Exec (List UInt8) :=
  if buf.length < off+n then .error (.panic "slice bounds out of range")
  else .ok ((buf.drop off).take n)

/-- The loop of `readIndex` over the ranges from number `i` on. -/
def parseRanges (rangeBuf : List UInt8) (size : ℕ) : ℕ → ℕ → ℕ → Exec (List ParsedRange)
  | 0, _, _ => .ok []
  | n+1, i, entryCount => do
    let buf ← slice rangeBuf (i*size) size
    let re ← RangeEntry.unmarshal buf
    let rest ← parseRanges rangeBuf size n (i+1) (entryCount+re.numEntries)
    .ok (⟨re,entryCount⟩::rest)

/-- The header is read and checked. -/
def readHeader (codec : HeaderCodec) (r : List UInt8) : Except Error (ℕ × Header) := do
  match ByteStream.readAt r 0 (magic.length+4) with
  | (_,some e) => .error e
  | (buf,none) =>
    if buf.take magic.length ≠ magic then .error (.new "sparseblock/Reader: invalid magic")
    else
      let headerSize := leNat (buf.drop magic.length)
      match ByteStream.readAt r (magic.length+4 : ℕ) headerSize with
      | (_,some e) => .error e
      | (headerBuf,none) =>
        match codec.unmarshal headerBuf with
        | none => .error (.new "proto: cannot parse invalid wire-format data")
        | some header =>
          if header.version ≠ 1 then
            .error (.new s!"sparseblock/Reader: unsupported verison {header.version}")
          else if header.blockSize < 512 ∨ 1024*1024 < header.blockSize then
            .error (.new s!"sparseblock/Reader: invalid block size: {header.blockSize}")
          else .ok (headerSize,header)

/-- `Load`. The sizes of the two sections are computed in 32 bits. -/
def load (codec : HeaderCodec) (r : List UInt8) : Exec (Except Error Reader) :=
  match readHeader codec r with
  | .error e => .ok (.error e)
  | .ok (headerSize,header) =>
    if header.numRangeEntries = 0 ∨ header.numBlockEntries = 0 then
      .ok (.ok ⟨r,header,0,[],[]⟩)
    else
      let rangeLen := header.numRangeEntries*header.rangeEntrySize%2^32
      let entryLen := header.numBlockEntries*header.blockEntrySize%2^32
      let rangeOffset := magic.length+4+headerSize
      match ByteStream.readAt r rangeOffset rangeLen with
      | (_,some e) => .ok (.error e)
      | (rangeBuf,none) =>
        match ByteStream.readAt r (rangeOffset+rangeLen : ℕ) entryLen with
        | (_,some e) => .ok (.error e)
        | (entryBuf,none) => do
          let ranges ← parseRanges rangeBuf header.rangeEntrySize header.numRangeEntries 0 0
          .ok (.ok ⟨r,header,(rangeOffset+rangeLen+entryLen : ℕ),ranges,entryBuf⟩)

namespace Reader

/-- `readerIndexEntry`, a run of bytes. Fields in bytes; every entry is of data. -/
structure Entry where
  offset : ℤ
  length : ℤ
  dataOffset : ℤ
  deriving DecidableEq

def Entry.contains (e : Entry) (off : ℤ) : Bool := e.offset ≤ off ∧ off < i64 (e.offset+e.length)

/-- The offset is an `int` product: one that wraps to a negative offset is, as an unsigned word,
outside every buffer. -/
def parseBlockEntry (r : Reader) (i : ℕ) : Exec BlockEntry := do
  let buf ← slice r.entryBuf (toU64 (i*r.header.blockEntrySize)) r.header.blockEntrySize
  BlockEntry.unmarshal buf

def rangeAt (r : Reader) (i : ℕ) : Exec ParsedRange :=
  match r.ranges[i]? with
  | none => .error (.panic "index out of range")
  | some re => .ok re

/-- `fillEntry`, with the data offset given in blocks. -/
def fillEntry (r : Reader) (re : ParsedRange) (be : BlockEntry) (dataBlockOffset : ℕ) : Entry where
  offset := i64 ((re.startOffset+be.offset)*r.header.blockSize)
  length := i64 (be.length*r.header.blockSize)
  dataOffset := i64 (dataBlockOffset*r.header.blockSize)

/-- The loop of `getNextEntry` over the `n` entries of a range from number `ei` on. -/
def scanEntries (r : Reader) (re : ParsedRange) (off : ℤ) : ℕ → ℕ → ℕ → Exec (Option Entry)
  | 0, _, _ => .ok none
  | n+1, ei, dataBlockOffset => do
    let be ← r.parseBlockEntry ei
    let entryOff : ℤ := re.startOffset+be.offset
    if off ≤ entryOff ∨ (entryOff ≤ off ∧ off < entryOff+be.length) then
      .ok (some (r.fillEntry re be dataBlockOffset))
    else r.scanEntries re off n (ei+1) (dataBlockOffset+be.length)

/-- `getNextEntry`, with the offset in blocks. -/
def getNextEntry (r : Reader) (off : ℤ) : Exec (Option Entry) := do
  let ri := sortSearch r.ranges.length fun i => off < ((r.ranges.map (·.startOffset)).getD i 0 : ℕ)
  if ri = 0 then
    let re ← r.rangeAt 0
    let be ← r.parseBlockEntry 0
    .ok (some (r.fillEntry re be 0))
  else
    let re ← r.rangeAt (ri-1)
    match ← r.scanEntries re off re.numEntries re.firstEntryIndex re.dataOffset with
    | some e => .ok (some e)
    | none =>
      if ri < r.ranges.length then
        let re ← r.rangeAt ri
        let be ← r.parseBlockEntry re.firstEntryIndex
        .ok (some (r.fillEntry re be re.dataOffset))
      else .ok none

def nextData (r : Reader) (off : ℤ) : Exec (ℤ × Option Error) := do
  match ← r.getNextEntry (off.tdiv r.header.blockSize) with
  | some e => .ok (if e.contains off then off else e.offset,none)
  | none => .ok (0,some .eof)

def nextHolePass (r : Reader) (off : ℤ) : Exec (ℤ ⊕ ℤ) := do
  match ← r.getNextEntry (off.tdiv r.header.blockSize) with
  | some e => .ok (if e.contains off then .inl (i64 (e.offset+e.length)) else .inr off)
  | none => .ok (.inr off)

/-- Every pass but the last goes to the end of another entry, read as part of a range. -/
def nextHole (r : Reader) (off : ℤ) : Exec (ℤ × Option Error) := do
  let off ← run r.nextHolePass ((r.ranges.map (·.numEntries)).sum+r.ranges.length+1) off
  .ok (off,none)

/-- The variables of the loop of `ReadAt`: the bytes of the buffer still to fill, the offset, and
the bytes filled, whose number is the running count. -/
structure ReadState where
  left : ℕ
  off : ℤ
  out : List UInt8

/-- What `ReadAt` returns: the bytes filled and counted, and the error. -/
abbrev ReadOut := List UInt8 × Option Error

/-- The second half of a pass: the part of the entry that is in the buffer. -/
def readData (r : Reader) (e : Entry) (s : ReadState) : Exec (ReadState ⊕ ReadOut) :=
  let eEnd := i64 (e.offset+e.length)
  let readLen : ℤ := if i64 (eEnd-s.off) < s.left then i64 (eEnd-s.off) else s.left
  if readLen < 0 then .error (.panic "slice bounds out of range")
  else
    let readOff := i64 (i64 (s.off-e.offset)+i64 (r.dataOffset+e.dataOffset))
    let (bs,err) := ByteStream.readAt r.r readOff readLen.toNat
    let err := if err = some .eof ∧ bs.length = readLen.toNat then none else err
    match err with
    | some err => .ok (.inr (s.out,some err))
    | none => .ok (.inl ⟨s.left-readLen.toNat,i64 (s.off+readLen),s.out++bs⟩)

def readPass (r : Reader) (s : ReadState) : Exec (ReadState ⊕ ReadOut) :=
  if s.left = 0 then .ok (.inr (s.out,none))
  else do
    match ← r.getNextEntry (s.off.tdiv r.header.blockSize) with
    | none => .ok (.inr (s.out,some .eof))
    | some e =>
      if e.contains s.off then r.readData e s
      else
        let zeroLen : ℤ := if i64 (e.offset-s.off) < s.left then i64 (e.offset-s.off) else s.left
        if zeroLen < 0 then .error (.panic "slice bounds out of range")
        else
          let s : ReadState := ⟨s.left-zeroLen.toNat,i64 (s.off+zeroLen),
            s.out++List.replicate zeroLen.toNat 0⟩
          if s.left = 0 then .ok (.inr (s.out,none)) else r.readData e s

/-- `ReadAt` with a buffer of `n` bytes; every pass but the last fills some of them. -/
def readAt (r : Reader) (n : ℕ) (off : ℤ) : Exec ReadOut :=
  run r.readPass (n+1) ⟨n,off,[]⟩

end Reader

end Sparse
end Logblock
