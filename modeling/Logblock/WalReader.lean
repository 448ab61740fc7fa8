import Logblock.WalWriter

/-! The reader of `internal/wal`. It indexes a log from the footer of a closed log if it
finds one, and otherwise by scanning the entries up to the first that is not whole. -/
namespace Logblock
namespace Wal

open Bytes ByteStream Loop Runs

structure Reader where
  ra : List UInt8
  endOff : ℤ
  index : Index

/-- The length of the header and what follows it. -/
def readHeader (codec : Codec) (rest : List UInt8) : Except Error (ℕ × List UInt8) :=
  match peek rest headerMagic.length with
  | (_,some err) => .error err
  | (magicBuf,none) =>
    if magicBuf ≠ headerMagic then .error (.new "wal/Reader: Invalid file magic")
    else
      match peek (rest.drop 8) 4 with
      | (_,some err) => .error err
      | (sizeBuf,none) =>
        let headerSize := leNat sizeBuf
        match peek (rest.drop 12) headerSize with
        | (_,some err) => .error err
        | (headerBuf,none) =>
          match codec.unmarshalHeader headerBuf with
          | none => .error (.new "proto: cannot parse")
          | some _ => .ok (12+headerSize,rest.drop (12+headerSize))

/-- One pass over the entries of the footer index; `section` is what the checksum covers. -/
def indexBody (codec : Codec) (sect : List UInt8) (crc : ℕ) :
    List UInt8 × Index × ℤ → Exec ((List UInt8 × Index × ℤ) ⊕ Except Error (Index × ℤ))
  | (rest,index,endOff) =>
    match readUvarint rest with
    | .error .eof =>
      .ok (.inr (if crc32 sect ≠ crc then .error errInvalidIndex else .ok (index,endOff)))
    | .error .unexpectedEOF => .ok (.inr (.error .unexpectedEOF))
    | .error .overflow => .ok (.inr (.error .overflow))
    | .ok (entrySize,rest) =>
      if 2^63 ≤ entrySize then .ok (.inr (.error .negativeCount))
      else
        match peek rest entrySize with
        | (_,some err) => .ok (.inr (.error err))
        | (entryBuf,none) =>
          match codec.unmarshalEntry entryBuf with
          | none => .ok (.inr (.error (.new "proto: cannot parse")))
          | some entry =>
            match entry.type with
            | .write => do
              let eOffset := i64 entry.offset
              let eLength := i64 entry.length
              let index ← index.add (toU64 eOffset) (toU64 eLength)
                ⟨i64 entry.logOffset,eOffset,eLength,false⟩
              .ok (.inl (rest.drop entrySize,index,Writer.moveEnd endOff eOffset eLength))
            | _ => .ok (.inr (.error errInvalidIndex))

def readIndex (codec : Codec) (ra : List UInt8) (size : ℤ) : Exec (Except Error (Index × ℤ)) :=
  match readAt ra (i64 (size-16)) 16 with
  | (_,some err) => .ok (.error err)
  | (footerEnd,none) =>
    if footerEnd.drop 8 ≠ footerMagic then .ok (.error errInvalidIndex)
    else
      let footerSize := leNat (footerEnd.take 4)
      let crc := leNat ((footerEnd.drop 4).take 4)
      let off := i64 (size-16-footerSize)
      if off < 0 then .ok (.error errInvalidIndex)
      else
        let sect := (ra.drop off.toNat).take footerSize
        run (indexBody codec sect crc) (sect.length+1) (sect,.empty,0)

/-- One pass of the loop that feeds the body of an entry to the checksum. -/
def copyBody : ℕ × List UInt8 × ℕ → Exec ((ℕ × List UInt8 × ℕ) ⊕ Except Error (List UInt8 × ℕ))
  | (copyBytes,rest,crc) =>
    if copyBytes = 0 then .ok (.inr (.ok (rest,crc)))
    else
      let peekBytes := min copyBytes bufSize
      match peek rest peekBytes with
      | (_,some .eof) => .ok (.inr (.error .unexpectedEOF))
      | (_,some err) => .ok (.inr (.error err))
      | (buf,none) => .ok (.inl (copyBytes-peekBytes,rest.drop peekBytes,crcUpdate crc buf))

/-- The scan: the unread bytes, their offset and the index so far. -/
structure Scan where
  rest : List UInt8
  logOff : ℤ
  index : Index
  endOff : ℤ

def Scan.reader (s : Scan) (ra : List UInt8) : Reader := ⟨ra,s.endOff,s.index⟩

/-- The end of a pass: check the sum of the body and index it if it is a write. -/
def indexPacket (ra : List UInt8) (s : Scan) (entry : List UInt8) (data : Option (ℤ × ℤ))
    (rest : List UInt8) (crc : ℕ) : Exec (Scan ⊕ (Reader × Option Error)) :=
  let packetSize := leNat ((entry.drop 4).take 3)
  if crcSum crc ≠ leNat (entry.take 4) then .ok (.inr (s.reader ra,some errCorruptedLog))
  else
    match data with
    | none => .ok (.inl { s with rest := rest, logOff := i64 (s.logOff+packetSize) })
    | some (dOffset,dLength) => do
      let index ← s.index.add (toU64 dOffset) (toU64 dLength)
        ⟨i64 (s.logOff+16),dOffset,dLength,false⟩
      .ok (.inl {
        rest := rest
        logOff := i64 (s.logOff+packetSize)
        index := index
        endOff := Writer.moveEnd s.endOff dOffset dLength })

/-- The second half of a pass: feed the body of the entry to the checksum. -/
def scanPacket (ra : List UInt8) (s : Scan) (entry : List UInt8) (data : Option (ℤ × ℤ)) :
    Exec (Scan ⊕ (Reader × Option Error)) := do
  let packetSize := leNat ((entry.drop 4).take 3)
  let copyBytes := (packetSize+2^32-entryBaseSize)%2^32
  match ← run copyBody (copyBytes+1) (copyBytes,s.rest,crcUpdate crcInit (entry.drop 4)) with
  | .error err => .ok (.inr (s.reader ra,some err))
  | .ok (rest,crc) => indexPacket ra s entry data rest crc

def scanBody (ra : List UInt8) (s : Scan) : Exec (Scan ⊕ (Reader × Option Error)) :=
  match peek s.rest entryBaseSize with
  | (entry,some .eof) =>
    .ok (.inr (s.reader ra,if entry.length = 0 then none else some .unexpectedEOF))
  | (_,some err) => .ok (.inr (s.reader ra,some err))
  | (entry,none) =>
    let pType := entry.getD 7 0
    let packetSize := leNat ((entry.drop 4).take 3)
    let s' := { s with rest := s.rest.drop entryBaseSize }
    if pType = EntryType.data.code then
      match peek s'.rest 8 with
      -- the end of the file is reported as it is here
      | (_,some err) => .ok (.inr (s.reader ra,some err))
      | (buf,none) => scanPacket ra s' entry (some (i64 (leNat buf),packetSize-entryBaseSize-8))
    else if pType = EntryType.trim.code then .error (.panic "Unsupported")
    else if pType = EntryType.footer.code then .ok (.inr (s.reader ra,none))
    else scanPacket ra s' entry none

def newReader (codec : Codec) (ra : List UInt8) (size : ℤ) : Exec (Reader × Option Error) :=
  match readHeader codec ra with
  | .error err => .ok (⟨ra,0,.empty⟩,some (if err = .eof then .unexpectedEOF else err))
  | .ok (n,rest) => do
    let footer ← if size > 0 then readIndex codec ra size else .ok (.error errInvalidIndex)
    match footer with
    | .ok (index,endOff) => .ok (⟨ra,endOff,index⟩,none)
    | .error _ => run (scanBody ra) (rest.length+1) ⟨rest,n,.empty,0⟩

namespace Reader

def size (r : Reader) : ℤ := r.endOff

def nextData (r : Reader) (off : ℤ) : ℤ × Option Error := Wal.nextData r.index off

def nextHole (r : Reader) (off : ℤ) : ℤ × Option Error := Wal.nextHole r.index off

def readAt (r : Reader) (n : ℕ) (off : ℤ) : Exec (List UInt8 × Option Error) :=
  readIndexed r.ra r.index n off

end Reader

end Wal
end Logblock
