import Logblock.WalRead

/-! The writer of `internal/wal`. A write appends one entry to the file and one record to
the index; the file may fail after any number of bytes of what is written to it. -/
namespace Logblock
namespace Wal

open Bytes Loop Runs

structure Writer where
  isOpen : Bool
  -- the file copies entries out through a buffer of one byte more than this, if it can
  rf : Option ℕ
  offset : ℤ
  endOff : ℤ
  -- the error of the header once it has been written
  headerOnce : Option (Option Error)
  index : Index

/-- How the file fails while the header and the entry are written. -/
structure Faults where
  header : Option ℕ
  entry : Option ℕ

/-- The bytes before the first entry. -/
def headerBytes (codec : Codec) : List UInt8 :=
  headerMagic++leBytes 4 (codec.marshalHeader header).length++codec.marshalHeader header

namespace Writer

def new (rf : Option ℕ) : Writer := ⟨true,rf,0,0,none,.empty⟩

def writeHeader (codec : Codec) (w : Writer) (f : File) (fault : Option ℕ) :
    Writer × File × Option Error :=
  match w.headerOnce with
  | some err => (w,f,err)
  | none =>
    if w.isOpen then
      let buf := codec.marshalHeader header
      let (f',written,err) := f.writeMany fault [headerMagic,leBytes 4 buf.length,buf]
      ({ w with headerOnce := some err, offset := written },f',err)
    else ({ w with headerOnce := some (some errWriterClosed) },f,some errWriterClosed)

def writeLogEntry (w : Writer) (f : File) (e : LogEntry) (fault : Option ℕ) : File × Option Error :=
  let (f',_,err) := match w.rf with
    | some n => f.writeMany fault (e.readChunks (n+1) (e.len+1))
    | none => f.writeMany fault (if e.data = [] then [e.header] else [e.header,e.data])
  (f',err)

/-- The end moves only when the new one is greater as a signed number. -/
@[irreducible] def moveEnd (endOff off length : ℤ) : ℤ :=
  if i64 (off+length) > endOff then i64 (off+length) else endOff

/-- The locked part of `WriteAt` and `Trim`: append the entry, then index the record. -/
def logAndIndex (w : Writer) (f : File) (e : LogEntry) (off length : ℤ) (lr : LogRecord)
    (fault : Option ℕ) : Exec (Writer × File × Option Error) :=
  if w.isOpen then
    match w.writeLogEntry f e fault with
    | (f',some err) => .ok (w,f',some err)
    | (f',none) => do
      let index ← w.index.add (toU64 off) (toU64 length) lr
      .ok ({ w with
        offset := i64 (w.offset+e.len)
        index := index
        endOff := moveEnd w.endOff off length },f',none)
  else .ok (w,f,some errWriterClosed)

def writeAt (codec : Codec) (w : Writer) (f : File) (p : List UInt8) (off : ℤ) (faults : Faults) :
    Exec (Writer × File × ℕ × Option Error) :=
  if p.length = 0 then .ok (w,f,0,none)
  else if p.length > maxWriteSize then .ok (w,f,0,some errWriteTooBig)
  else
    match w.writeHeader codec f faults.header with
    | (w',f',some err) => .ok (w',f',0,some err)
    | (w',f',none) => do
      let e := makeLogEntry .data off p.length p
      let lr : LogRecord := ⟨i64 (w'.offset+e.header.length),off,p.length,false⟩
      let (w'',f'',err) ← w'.logAndIndex f' e off p.length lr faults.entry
      .ok (w'',f'',if err = none then p.length else 0,err)

def trim (codec : Codec) (w : Writer) (f : File) (off length : ℤ) (faults : Faults) :
    Exec (Writer × File × Option Error) :=
  if length = 0 then .ok (w,f,none)
  else
    match w.writeHeader codec f faults.header with
    | (w',f',some err) => .ok (w',f',some err)
    | (w',f',none) =>
      w'.logAndIndex f' (makeLogEntry .trim off length []) off length ⟨0,off,length,true⟩
        faults.entry

/-- What `CloseWriter` stores of a run of the index. A record may be overwritten at its
start, so the offset in the log moves with the run. -/
def indexEntry (mr : RangeValue LogRecord) : IndexEntry :=
  if mr.value.zero then ⟨.trim,mr.offset,mr.length,0⟩
  else ⟨.write,mr.offset,mr.length,toU64 (mr.value.logOffset+(mr.offset-mr.value.offset))⟩

/-- The stored form of an entry: its size and its bytes. -/
def indexChunk (codec : Codec) (e : IndexEntry) : List UInt8 :=
  putUvarint (codec.marshalEntry e).length++codec.marshalEntry e

def footerIndex (codec : Codec) (w : Writer) : List UInt8 :=
  w.index.iterate 0 (fun buf mr => (buf++indexChunk codec (indexEntry mr),true)) []

/-- What follows the footer entry in a closed log. -/
def footerBytes (codec : Codec) (w : Writer) : List UInt8 :=
  w.footerIndex codec++leBytes 4 (w.footerIndex codec).length++
    leBytes 4 (crc32 (w.footerIndex codec))++footerMagic

/-- The buffered writes of `CloseWriter` reach the file as one. -/
def closeWriter (codec : Codec) (w : Writer) (f : File) (fault : Option ℕ) :
    Writer × File × Option Error :=
  if w.isOpen then
    if w.offset = 0 then (w,f,none)
    else
      let (f',_,err) := f.write (footerEntry.bytes++w.footerBytes codec) fault
      ({ w with isOpen := false },f',err)
  else (w,f,some errWriterClosed)

def size (w : Writer) : ℤ := w.endOff

def logSize (w : Writer) : ℤ := w.offset

def nextData (w : Writer) (off : ℤ) : ℤ × Option Error := Wal.nextData w.index off

def nextHole (w : Writer) (off : ℤ) : ℤ × Option Error := Wal.nextHole w.index off

def readAtFrom (w : Writer) (file : List UInt8) (n : ℕ) (off : ℤ) :
    Exec (List UInt8 × Option Error) := readIndexed file w.index n off

/-- Both ways to write an entry append its bytes. -/
theorem writeLogEntry_eq (w : Writer) (f : File) {e : LogEntry} (he : e.readOff = 0)
    (fault : Option ℕ) :
    w.writeLogEntry f e fault = ((f.write e.bytes fault).1,(f.write e.bytes fault).2.2) := by
  unfold writeLogEntry
  cases w.rf with
  | some n =>
    simp only [File.writeMany_eq]
    rw [LogEntry.flatten_readChunks (by omega) _ _ (by omega) (by omega),he,List.drop_zero]
  | none =>
    simp only [File.writeMany_eq]
    by_cases hd : e.data = []
    · simp [hd,LogEntry.bytes]
    · simp [hd,LogEntry.bytes]

end Writer

/-- A call of `WriteAt` that the size check lets through. -/
structure Write where
  off : ℕ
  data : List UInt8
  off_lt : off < 2^63
  data_pos : 0 < data.length
  data_le : data.length ≤ maxWriteSize
  deriving DecidableEq

namespace Write

/-- A write of one byte. -/
def byte (off : UInt32) (b : UInt8) : Write where
  off := off.toNat
  data := [b]
  off_lt := by
    have := off.toNat_lt
    omega
  data_pos := by simp
  data_le := by simp [maxWriteSize]

def entry (wr : Write) : LogEntry := dataEntry wr.off wr.data

@[simp] theorem entry_len (wr : Write) : wr.entry.len = 16+wr.data.length := by simp [entry]

theorem entry_len_le (wr : Write) : wr.entry.len ≤ 2^23 := by
  have := wr.data_le
  rw [entry_len]
  unfold maxWriteSize at this
  omega

theorem end_lt (wr : Write) : wr.off+wr.data.length < 2^64 := by
  have := wr.data_le
  have := wr.off_lt
  unfold maxWriteSize at *
  omega

end Write

/-- A call of `Trim` with a range. -/
structure Trim where
  off : ℕ
  length : ℕ
  off_lt : off < 2^63
  length_pos : 0 < length
  length_lt : length < 2^63
  deriving DecidableEq

/-- A call that writes to the log. -/
inductive Op
  | write (wr : Write)
  | trim (t : Trim)
  deriving DecidableEq

namespace Op

def off : Op → ℕ
  | .write wr => wr.off
  | .trim t => t.off

def length : Op → ℕ
  | .write wr => wr.data.length
  | .trim t => t.length

def entry : Op → LogEntry
  | .write wr => wr.entry
  | .trim t => makeLogEntry .trim t.off t.length []

/-- The record of a call whose data lies at `logOffset`. A trim has none. -/
def logRecord (logOffset : ℤ) : Op → LogRecord
  | .write wr => ⟨logOffset,wr.off,wr.data.length,false⟩
  | .trim t => ⟨0,t.off,t.length,true⟩

/-- The range and the record of a call whose entry starts at `pos`. -/
def record (pos : ℕ) (op : Op) : RangeValue LogRecord :=
  ⟨⟨op.off,op.length⟩,op.logRecord (pos+16)⟩

theorem off_lt : ∀ op : Op, op.off < 2^63
  | .write wr => wr.off_lt
  | .trim t => t.off_lt

theorem length_pos : ∀ op : Op, 0 < op.length
  | .write wr => wr.data_pos
  | .trim t => t.length_pos

theorem length_lt : ∀ op : Op, op.length < 2^63
  | .write wr => by
    have := wr.data_le
    unfold maxWriteSize at this
    show wr.data.length < 2^63
    omega
  | .trim t => t.length_lt

theorem end_lt (op : Op) : op.off+op.length < 2^64 := by
  have := op.off_lt
  have := op.length_lt
  omega

theorem readOff_entry (op : Op) : op.entry.readOff = 0 := by
  cases op <;> rfl

theorem logRecord_range (logOffset : ℤ) (op : Op) : (op.logRecord logOffset).offset = op.off ∧
    (op.logRecord logOffset).length = op.length := by
  cases op <;> exact ⟨rfl,rfl⟩

end Op

/-- The entries of the calls in their order. -/
def opsBytes (ops : List Op) : List UInt8 := ops.flatMap fun op => op.entry.bytes

/-- The log of the calls. -/
def opsLog (codec : Codec) (ops : List Op) : List UInt8 := headerBytes codec++opsBytes ops

def opRecords : ℕ → List Op → List (RangeValue LogRecord)
  | _, [] => []
  | pos, op::ops => op.record pos::opRecords (pos+op.entry.len) ops

/-- The end that `Size` gives. -/
def opsEnd (ops : List Op) : ℤ := ops.foldl (fun e op => Writer.moveEnd e op.off op.length) 0

theorem opsEnd_snoc (ops : List Op) (op : Op) :
    opsEnd (ops++[op]) = Writer.moveEnd (opsEnd ops) op.off op.length := by
  rw [opsEnd,List.foldl_append,List.foldl_cons,List.foldl_nil,opsEnd]

@[simp] theorem opsBytes_nil : opsBytes [] = [] := rfl

@[simp] theorem opsBytes_cons (op : Op) (ops : List Op) :
    opsBytes (op::ops) = op.entry.bytes++opsBytes ops := rfl

theorem opsBytes_append (ops ops' : List Op) :
    opsBytes (ops++ops') = opsBytes ops++opsBytes ops' := List.flatMap_append

theorem opsLog_append (codec : Codec) (ops ops' : List Op) :
    opsLog codec (ops++ops') = opsLog codec ops++opsBytes ops' := by
  rw [opsLog,opsBytes_append,← List.append_assoc,opsLog]

theorem opsLog_snoc (codec : Codec) (ops : List Op) (op : Op) :
    opsLog codec (ops++[op]) = opsLog codec ops++op.entry.bytes := by
  rw [opsLog_append,opsBytes_cons,opsBytes_nil,List.append_nil]

theorem opRecords_append (pos : ℕ) (ops ops' : List Op) : opRecords pos (ops++ops') =
    opRecords pos ops++opRecords (pos+(opsBytes ops).length) ops' := by
  induction ops generalizing pos with
  | nil => rfl
  | cons op ops ih =>
    rw [List.cons_append,opRecords,opRecords,ih,List.cons_append,opsBytes_cons,List.length_append,
      LogEntry.length_bytes,add_assoc]

theorem mem_opRecords {pos : ℕ} {ops : List Op} {r : RangeValue LogRecord}
    (h : r ∈ opRecords pos ops) : ∃ p op, op ∈ ops ∧ r = op.record p ∧
      p+op.entry.len ≤ pos+(opsBytes ops).length := by
  induction ops generalizing pos with
  | nil => cases h
  | cons op ops ih =>
    rw [opsBytes_cons,List.length_append,LogEntry.length_bytes]
    rcases List.mem_cons.mp h with rfl | h
    · exact ⟨pos,op,List.mem_cons_self,rfl,by omega⟩
    · obtain ⟨p,op',hmem,he,hle⟩ := ih h
      exact ⟨p,op',List.mem_cons_of_mem op hmem,he,by omega⟩

theorem opRecords_bounded (pos : ℕ) (ops : List Op) :
    ∀ r ∈ opRecords pos ops, r.offset+r.length < 2^64 := by
  intro r hr
  obtain ⟨p,op,_,rfl,_⟩ := mem_opRecords hr
  exact op.end_lt

/-- The index of a log: the records of its calls, added in the order of the file. -/
def IndexOfOps (codec : Codec) (ops : List Op) (index : Index) : Prop :=
  ExtentRangeMap.empty.addAll (opRecords (headerBytes codec).length ops) = .ok index

section IndexOfOps

variable {codec : Codec} {ops : List Op} {index : Index}

theorem exists_indexOfOps (codec : Codec) (ops : List Op) : ∃ index, IndexOfOps codec ops index := by
  obtain ⟨m,hm,-,-⟩ := ExtentRangeMap.addAll_spec (opRecords (headerBytes codec).length ops) .empty
    ExtentRangeMap.empty_wf (opRecords_bounded _ _)
  exact ⟨m,hm⟩

theorem IndexOfOps.spec (h : IndexOfOps codec ops index) : index.WF ∧
    index.get = paintAll (fun _ => none) (opRecords (headerBytes codec).length ops) := by
  obtain ⟨m,hm,hwf,hget⟩ := ExtentRangeMap.addAll_spec
    (opRecords (headerBytes codec).length ops) .empty ExtentRangeMap.empty_wf
    (opRecords_bounded _ _)
  rw [IndexOfOps,hm] at h
  cases h
  exact ⟨hwf,hget⟩

/-- Adding the record of one more call. -/
theorem IndexOfOps.snoc (h : IndexOfOps codec ops index) (op : Op) : ∃ index',
    index.add op.off op.length (op.logRecord ((opsLog codec ops).length+16)) = .ok index' ∧
      IndexOfOps codec (ops++[op]) index' := by
  obtain ⟨m,hm,-,-⟩ := ExtentRangeMap.add_spec h.spec.1 op.end_lt
    (op.logRecord ((opsLog codec ops).length+16))
  refine ⟨m,hm,?_⟩
  rw [IndexOfOps,opRecords_append,ExtentRangeMap.addAll,List.foldlM_append,← ExtentRangeMap.addAll,h]
  simp only [opRecords,List.foldlM_cons,List.foldlM_nil]
  rw [opsLog,List.length_append] at hm
  exact congrArg (· >>= pure) hm

end IndexOfOps

section Writes

/-- The log of a sequence of writes. -/
def entriesBytes (ws : List Write) : List UInt8 := opsBytes (ws.map .write)

def logBytes (codec : Codec) (ws : List Write) : List UInt8 := headerBytes codec++entriesBytes ws

/-- The record of a write whose entry starts at `pos`. -/
def recordAt (pos : ℕ) (wr : Write) : RangeValue LogRecord := (Op.write wr).record pos

def recordsFrom (pos : ℕ) (ws : List Write) : List (RangeValue LogRecord) :=
  opRecords pos (ws.map .write)

def endOf (ws : List Write) : ℤ := opsEnd (ws.map .write)

/-- The index of a log of writes. -/
def IndexOf (codec : Codec) (ws : List Write) (index : Index) : Prop :=
  ExtentRangeMap.empty.addAll (recordsFrom (headerBytes codec).length ws) = .ok index

theorem recordAt_eq (pos : ℕ) (wr : Write) : recordAt pos wr =
    ⟨⟨wr.off,wr.data.length⟩,⟨pos+16,wr.off,wr.data.length,false⟩⟩ := rfl

theorem endOf_snoc (ws : List Write) (wr : Write) :
    endOf (ws++[wr]) = Writer.moveEnd (endOf ws) wr.off wr.data.length := by
  rw [endOf,List.map_append]
  exact opsEnd_snoc _ (.write wr)

@[simp] theorem entriesBytes_nil : entriesBytes [] = [] := rfl

@[simp] theorem entriesBytes_cons (wr : Write) (ws : List Write) :
    entriesBytes (wr::ws) = wr.entry.bytes++entriesBytes ws := rfl

theorem entriesBytes_append (ws ws' : List Write) :
    entriesBytes (ws++ws') = entriesBytes ws++entriesBytes ws' := by
  rw [entriesBytes,List.map_append,opsBytes_append,entriesBytes,entriesBytes]

theorem recordsFrom_cons (pos : ℕ) (wr : Write) (ws : List Write) :
    recordsFrom pos (wr::ws) = recordAt pos wr::recordsFrom (pos+wr.entry.len) ws := rfl

variable {codec : Codec} {ws : List Write} {index : Index}

theorem IndexOf.spec (h : IndexOf codec ws index) : index.WF ∧
    index.get = paintAll (fun _ => none) (recordsFrom (headerBytes codec).length ws) :=
  IndexOfOps.spec h

theorem exists_indexOf (codec : Codec) (ws : List Write) : ∃ index, IndexOf codec ws index :=
  exists_indexOfOps codec _

theorem IndexOf.snoc (h : IndexOf codec ws index) (wr : Write) : ∃ index',
    index.add wr.off wr.data.length (recordAt (logBytes codec ws).length wr).value = .ok index' ∧
      IndexOf codec (ws++[wr]) index' := by
  obtain ⟨index',hadd,hindex⟩ := IndexOfOps.snoc h (.write wr)
  refine ⟨index',hadd,?_⟩
  rw [IndexOf,recordsFrom,List.map_append]
  exact hindex

end Writes

/-- A writer that has logged `ws`, over a file that ends in `torn`. -/
structure Logged (codec : Codec) (w : Writer) (f : File) (ws : List Write) (torn : List UInt8) :
    Prop where
  isOpen : w.isOpen = true
  header : w.headerOnce = some none
  file : f.bytes = logBytes codec ws++torn
  offset : w.offset = (logBytes codec ws).length
  endOff : w.endOff = endOf ws
  index : IndexOf codec ws w.index

namespace Logged

variable {codec : Codec} {w : Writer} {f : File} {ws : List Write} {torn : List UInt8}

/-- Once the header is written a call only appends its entry. -/
theorem writeAt_eq (h : Logged codec w f ws torn) (wr : Write) (faults : Faults) :
    w.writeAt codec f wr.data wr.off faults = (w.logAndIndex f wr.entry wr.off wr.data.length
      ⟨i64 (w.offset+(16 : ℕ)),wr.off,wr.data.length,false⟩ faults.entry).bind fun r =>
        .ok (r.1,r.2.1,if r.2.2 = none then wr.data.length else 0,r.2.2) := by
  have hle := wr.data_le
  have hpos := wr.data_pos
  have hhead : w.writeHeader codec f faults.header = (w,f,none) := by
    simp only [Writer.writeHeader,h.header]
  have hlen : (makeLogEntry .data wr.off wr.data.length wr.data).header.length = 16 :=
    dataEntry_header_length _ _
  rw [Writer.writeAt,if_neg (by omega),if_neg (by omega),hhead]
  simp only [hlen]
  rfl

/-- A call whose append fails leaves the writer as it is. -/
theorem writeAt_of_fails (h : Logged codec w f ws torn) (wr : Write) (faults : Faults)
    (hf : f.fails wr.entry.len faults.entry = true) : w.writeAt codec f wr.data wr.off faults =
      .ok (w,f.grow wr.entry.bytes faults.entry,0,some .device) := by
  have hwrite : w.writeLogEntry f wr.entry faults.entry =
      (f.grow wr.entry.bytes faults.entry,some .device) := by
    rw [Writer.writeLogEntry_eq w f rfl,File.write,LogEntry.length_bytes,hf]
    rfl
  rw [h.writeAt_eq,Writer.logAndIndex,h.isOpen,if_pos rfl,hwrite]
  rfl

/-- A call whose append succeeds logs one more write. -/
theorem writeAt_of_not_fails (h : Logged codec w f ws []) (wr : Write) (faults : Faults)
    (hf : f.fails wr.entry.len faults.entry = false) :
    ∃ w', w.writeAt codec f wr.data wr.off faults =
        .ok (w',f.grow wr.entry.bytes faults.entry,wr.data.length,none) ∧
      Logged codec w' (f.grow wr.entry.bytes faults.entry) (ws++[wr]) [] := by
  have hfile : f.bytes = logBytes codec ws := by rw [h.file,List.append_nil]
  have hall : f.persisted wr.entry.bytes.length faults.entry = wr.entry.bytes.length := by
    rw [LogEntry.length_bytes]
    exact File.not_fails hf
  have hgrow : (f.grow wr.entry.bytes faults.entry).bytes = logBytes codec ws++wr.entry.bytes := by
    rw [File.grow_bytes,hall,List.take_length,hfile]
  have hlog : logBytes codec (ws++[wr]) = logBytes codec ws++wr.entry.bytes := by
    simp [logBytes,entriesBytes_append]
  -- the file holds the new entry, so no offset in it overflows
  have hsmall := (f.grow wr.entry.bytes faults.entry).small
  rw [hgrow,List.length_append,LogEntry.length_bytes] at hsmall
  have hlen := wr.entry_len
  have hrec : (⟨i64 (w.offset+(16 : ℕ)),wr.off,wr.data.length,false⟩ : LogRecord) =
      (recordAt (logBytes codec ws).length wr).value := by
    rw [h.offset,recordAt,i64_of_range (by omega) (by omega)]
    rfl
  have hwrite : w.writeLogEntry f wr.entry faults.entry =
      (f.grow wr.entry.bytes faults.entry,none) := by
    rw [Writer.writeLogEntry_eq w f rfl,File.write,LogEntry.length_bytes,hf]
    rfl
  have hend := wr.end_lt
  obtain ⟨index',hadd,hindex'⟩ := h.index.snoc wr
  refine ⟨{ w with
      offset := i64 (w.offset+wr.entry.len)
      index := index'
      endOff := Writer.moveEnd w.endOff wr.off wr.data.length },?_,?_⟩
  · rw [h.writeAt_eq,Writer.logAndIndex,h.isOpen,if_pos rfl,hwrite,hrec,
      toU64_natCast (by omega),toU64_natCast (by omega)]
    simp only [hadd]
    rfl
  · refine ⟨h.isOpen,h.header,by rw [hgrow,hlog,List.append_nil],?_,?_,hindex'⟩
    · show i64 (w.offset+wr.entry.len) = _
      rw [hlog,List.length_append,LogEntry.length_bytes,h.offset,Nat.cast_add]
      exact i64_of_range (by omega) (by omega)
    · show Writer.moveEnd w.endOff wr.off wr.data.length = _
      rw [h.endOff,endOf_snoc]

end Logged

section Fresh

variable (codec : Codec) (rf : Option ℕ)

theorem flatten_header : [headerMagic,leBytes 4 (codec.marshalHeader header).length,
    codec.marshalHeader header].flatten = headerBytes codec := by
  simp [headerBytes]

theorem writeHeader_new (f : File) (fault : Option ℕ) :
    (Writer.new rf).writeHeader codec f fault =
      ({ Writer.new rf with
        headerOnce := some (f.write (headerBytes codec) fault).2.2
        offset := (f.write (headerBytes codec) fault).2.1 },
        (f.write (headerBytes codec) fault).1,(f.write (headerBytes codec) fault).2.2) := by
  simp only [Writer.writeHeader,Writer.new,if_true,File.writeMany_eq,flatten_header]

/-- The writer once the header is in the file. -/
def afterHeader : Writer :=
  { Writer.new rf with headerOnce := some none, offset := (headerBytes codec).length }

theorem logged_afterHeader {f : File} (hf : f.bytes = headerBytes codec) :
    Logged codec (afterHeader codec rf) f [] [] :=
  ⟨rfl,rfl,by simp [logBytes,hf],by simp [logBytes,afterHeader],rfl,rfl⟩

/-- The first call writes the header and then goes on as any other call. -/
theorem writeAt_new (wr : Write) (faults : Faults)
    (hf : File.empty.fails (headerBytes codec).length faults.header = false) :
    (Writer.new rf).writeAt codec .empty wr.data wr.off faults =
      (afterHeader codec rf).writeAt codec (File.empty.grow (headerBytes codec) faults.header)
        wr.data wr.off faults := by
  have hle := wr.data_le
  have hpos := wr.data_pos
  have hfirst : (Writer.new rf).writeHeader codec .empty faults.header =
      (afterHeader codec rf,File.empty.grow (headerBytes codec) faults.header,none) := by
    simp only [writeHeader_new,File.write,hf,Bool.false_eq_true,if_false,File.not_fails hf]
    rfl
  rw [Writer.writeAt,Writer.writeAt,if_neg (by omega),if_neg (by omega),if_neg (by omega),
    if_neg (by omega),hfirst]
  rfl

/-- If the header cannot be written the call fails, and so will every later one. -/
theorem writeAt_new_of_fails (wr : Write) (faults : Faults)
    (hf : File.empty.fails (headerBytes codec).length faults.header = true) :
    (Writer.new rf).writeAt codec .empty wr.data wr.off faults =
      .ok ({ Writer.new rf with
        headerOnce := some (some .device)
        offset := File.empty.persisted (headerBytes codec).length faults.header },
        File.empty.grow (headerBytes codec) faults.header,0,some .device) := by
  have hle := wr.data_le
  have hpos := wr.data_pos
  rw [Writer.writeAt,if_neg (by omega),if_neg (by omega),writeHeader_new]
  simp only [File.write,hf,if_true]

end Fresh

/-- A sequence of successful calls of `WriteAt` on a new log. -/
inductive Written (codec : Codec) (rf : Option ℕ) : List Write → Writer → File → Prop
  | new : Written codec rf [] (Writer.new rf) .empty
  | write {ws : List Write} {w w' : Writer} {f f' : File} (wr : Write) (faults : Faults) :
      Written codec rf ws w f →
      w.writeAt codec f wr.data wr.off faults = .ok (w',f',wr.data.length,none) →
      Written codec rf (ws++[wr]) w' f'

/-- After a successful call the file is the header and the entries of the calls. -/
theorem Written.logged {codec : Codec} {rf : Option ℕ} {ws : List Write} {w : Writer} {f : File}
    (h : Written codec rf ws w f) :
    (ws = [] ∧ w = Writer.new rf ∧ f = .empty) ∨ (ws ≠ [] ∧ Logged codec w f ws []) := by
  induction h with
  | new => exact .inl ⟨rfl,rfl,rfl⟩
  | @write ws w w' f f' wr faults _ hcall ih =>
    refine .inr ⟨by simp,?_⟩
    have step {w₁ : Writer} {f₁ : File} (hl : Logged codec w₁ f₁ ws [])
        (hc : w₁.writeAt codec f₁ wr.data wr.off faults = .ok (w',f',wr.data.length,none)) :
        Logged codec w' f' (ws++[wr]) [] := by
      cases hf : f₁.fails wr.entry.len faults.entry with
      | true =>
        rw [hl.writeAt_of_fails wr faults hf] at hc
        simp at hc
      | false =>
        obtain ⟨w'',hw,hlog⟩ := hl.writeAt_of_not_fails wr faults hf
        rw [hw] at hc
        simp only [Except.ok.injEq,Prod.mk.injEq,and_true] at hc
        obtain ⟨rfl,rfl⟩ := hc
        exact hlog
    rcases ih with ⟨rfl,rfl,rfl⟩ | ⟨-,hl⟩
    · cases hf : File.empty.fails (headerBytes codec).length faults.header with
      | true =>
        rw [writeAt_new_of_fails codec rf wr faults hf] at hcall
        simp at hcall
      | false =>
        rw [writeAt_new codec rf wr faults hf] at hcall
        refine step (logged_afterHeader codec rf ?_) hcall
        rw [File.grow_bytes,File.not_fails hf,List.take_length]
        rfl
    · exact step hl hcall

/-- A device that never fails takes every sequence of writes that fits into a file. -/
theorem exists_written (codec : Codec) (rf : Option ℕ) (ws : List Write)
    (h : (logBytes codec ws).length < 2^63) : ∃ w f, Written codec rf ws w f := by
  induction ws using List.reverseRecOn with
  | nil => exact ⟨_,_,.new⟩
  | append_singleton ws wr ih =>
    have hlen : (logBytes codec (ws++[wr])).length = (logBytes codec ws).length+wr.entry.len := by
      simp [logBytes,entriesBytes_append,add_assoc]
    obtain ⟨w,f,hw⟩ := ih (by omega)
    have step {w₁ : Writer} {f₁ : File} (hl : Logged codec w₁ f₁ ws []) :
        ∃ w' f', w₁.writeAt codec f₁ wr.data wr.off ⟨none,none⟩ =
          .ok (w',f',wr.data.length,none) := by
      have hf : f₁.fails wr.entry.len none = false :=
        File.fails_none (by rw [hl.file,List.append_nil]; omega)
      obtain ⟨w',hw',-⟩ := hl.writeAt_of_not_fails wr ⟨none,none⟩ hf
      exact ⟨w',_,hw'⟩
    rcases hw.logged with ⟨rfl,rfl,rfl⟩ | ⟨-,hl⟩
    · have hempty : (logBytes codec []).length = (headerBytes codec).length := by simp [logBytes]
      have hf : File.empty.fails (headerBytes codec).length none = false :=
        File.fails_none (by rw [← hempty]; simp only [File.empty,List.length_nil]; omega)
      obtain ⟨w',f',hw'⟩ := step (logged_afterHeader codec rf
        (f := File.empty.grow (headerBytes codec) none) (by
          rw [File.grow_bytes,File.not_fails hf,List.take_length]
          rfl))
      exact ⟨w',f',.write wr ⟨none,none⟩ hw (by rw [writeAt_new codec rf wr ⟨none,none⟩ hf,hw'])⟩
    · obtain ⟨w',f',hw'⟩ := step hl
      exact ⟨w',f',.write wr ⟨none,none⟩ hw hw'⟩

end Wal
end Logblock
