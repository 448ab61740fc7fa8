import Logblock.WalWriter

/-! Entries of the log as the pool of `internal/wal` holds them: a header at the front of a buffer
of fixed size that is used again, a payload that is not copied, and one cursor over both. A file
that is an `io.ReaderFrom` takes an entry through calls of `Read`, any other one through
`WriteTo`. -/
namespace Logblock
namespace Wal

open Bytes Loop

def maxHeaderLen : ℕ := 32

/-- The unsigned 32-bit word congruent to `x`. -/
def toU32 (x : ℤ) : ℕ := (x%2^32).toNat

/-- The bytes `bs` replace those of the buffer from `pos` on. -/
def put (buf : List UInt8) (pos : ℕ) (bs : List UInt8) : List UInt8 :=
  buf.take pos++bs++buf.drop (pos+bs.length)

theorem length_put {buf bs : List UInt8} {pos : ℕ} (h : pos+bs.length ≤ buf.length) :
    (put buf pos bs).length = buf.length := by
  simp only [put,List.length_append,List.length_take,List.length_drop]
  omega

theorem take_put {buf bs : List UInt8} {pos n : ℕ} (hpos : pos ≤ n) (hn : n ≤ pos+bs.length)
    (hbuf : pos ≤ buf.length) : (put buf pos bs).take n = buf.take pos++bs.take (n-pos) := by
  have hlen : (buf.take pos).length = pos := List.length_take_of_le hbuf
  rw [put,List.append_assoc,List.take_append,hlen,List.take_of_length_le (by omega),
    List.take_append_of_le_length (by omega)]

theorem take_put_zero {buf bs : List UInt8} {n : ℕ} (hn : bs.length ≤ n) :
    (put buf 0 bs).take n = bs++(buf.take n).drop bs.length := by
  rw [put,List.take_zero,List.nil_append,List.take_append,List.take_of_length_le hn,zero_add,
    List.drop_take]

/-- `buf[lo:hi]`. -/
def sliceOf (buf : List UInt8) (lo hi : ℤ) : Exec (List UInt8) :=
  if 0 ≤ lo ∧ lo ≤ hi ∧ hi ≤ buf.length then .ok ((buf.take hi.toNat).drop lo.toNat)
  else .error (.panic "slice bounds out of range")

theorem sliceOf_eq {buf : List UInt8} {lo hi : ℕ} (hlo : lo ≤ hi) (hhi : hi ≤ buf.length) :
    sliceOf buf lo hi = .ok ((buf.take hi).drop lo) := by
  rw [sliceOf,if_pos (by omega)]
  rfl

/-- `logEntry`. A payload may be `nil`. -/
structure PooledEntry where
  headerSize : ℕ
  headerBuf : List UInt8
  data : Option (List UInt8)
  readOff : ℕ
  length_headerBuf : headerBuf.length = maxHeaderLen
  headerSize_le : headerSize ≤ maxHeaderLen

namespace PooledEntry

def payload (e : PooledEntry) : List UInt8 := e.data.getD []

def len (e : PooledEntry) : ℕ := e.headerSize+e.payload.length

/-- The writes of `WriteTo`. -/
def writeTo (e : PooledEntry) : List (List UInt8) :=
  if e.payload.length = 0 then [e.headerBuf.take e.headerSize]
  else [e.headerBuf.take e.headerSize,e.payload]

/-- What `Read` copies of the header into a buffer of `n` bytes. -/
def copyHeader (e : PooledEntry) (n : ℕ) : Exec (List UInt8) :=
  if e.readOff < e.headerSize then
    (sliceOf e.headerBuf e.readOff e.headerSize).map fun src => src.take n
  else .ok []

/-- What it copies of the payload, with the cursor at `readOff` and `headerN` bytes in the
buffer. -/
def copyData (e : PooledEntry) (readOff headerN n : ℕ) : Exec (List UInt8) :=
  match e.data with
  | none => .ok []
  | some data =>
    if headerN < n then
      (sliceOf data ((readOff : ℤ)-e.headerSize) data.length).map fun src => src.take (n-headerN)
    else .ok []

/-- `Read` into a buffer of `n` bytes. -/
def read (e : PooledEntry) (n : ℕ) : Exec (List UInt8 × PooledEntry × Option Error) := do
  let head ← e.copyHeader n
  let body ← e.copyData (e.readOff+head.length) head.length n
  let readOff := e.readOff+head.length+body.length
  .ok (head++body,{e with readOff := readOff},if readOff = e.len then some .eof else none)

/-- The fields of `makeLogEntry` from the size on, in the buffer of the entry. The type goes over
the high byte of the size. -/
def fill (buf : List UInt8) (pType : EntryType) (packetSize offset length : ℤ) : List UInt8 :=
  let typed := put (put buf 4 (leBytes 4 (toU32 packetSize))) 7 [pType.code]
  match pType with
  | .data => put typed 8 (leBytes 8 (toU64 offset))
  | .trim => put (put typed 8 (leBytes 8 (toU64 offset))) 16 (leBytes 8 (toU64 length))
  | .footer => typed

section Fill

variable {buf : List UInt8} (hbuf : buf.length = 32)
include hbuf

theorem length_typed (packetSize : ℤ) (code : UInt8) :
    (put (put buf 4 (leBytes 4 (toU32 packetSize))) 7 [code]).length = 32 := by
  have hsized : (put buf 4 (leBytes 4 (toU32 packetSize))).length = 32 :=
    (length_put (by simp [hbuf])).trans hbuf
  exact (length_put (by simp [hsized])).trans hsized

theorem length_offset (packetSize : ℤ) (code : UInt8) (offset : ℤ) :
    (put (put (put buf 4 (leBytes 4 (toU32 packetSize))) 7 [code]) 8
      (leBytes 8 (toU64 offset))).length = 32 := by
  have htyped := length_typed hbuf packetSize code
  exact (length_put (by simp [htyped])).trans htyped

theorem length_fill (pType : EntryType) (packetSize offset length : ℤ) :
    (fill buf pType packetSize offset length).length = 32 := by
  cases pType with
  | data => exact length_offset hbuf packetSize _ offset
  | trim =>
    have hoffset := length_offset hbuf packetSize EntryType.trim.code offset
    exact (length_put (by simp [hoffset])).trans hoffset
  | footer => exact length_typed hbuf packetSize _

end Fill

def headerSizeOf : EntryType → ℕ
  | .data => entryBaseSize+8
  | .trim => entryBaseSize+8+8
  | .footer => entryBaseSize

def packetSizeOf (length : ℤ) : EntryType → ℤ
  | .data => entryBaseSize+8+length
  | .trim => entryBaseSize+8+8
  | .footer => entryBaseSize

/-- `makeLogEntry` with the entry `e` of the pool. -/
def makeLogEntry (e : PooledEntry) (pType : EntryType) (offset length : ℤ)
    (data : Option (List UInt8)) : PooledEntry :=
  let filled := fill e.headerBuf pType (packetSizeOf length pType) offset length
  let crc := crc32 ((filled.take (headerSizeOf pType)).drop 4++data.getD [])
  { headerSize := headerSizeOf pType
    headerBuf := put filled 0 (leBytes 4 crc)
    data := data
    readOff := 0
    length_headerBuf := by
      have hlen : filled.length = 32 := length_fill e.length_headerBuf _ _ _ _
      exact (length_put (by simp [hlen])).trans hlen
    headerSize_le := by cases pType <;> decide }

/-- The entry without the buffer around its header. -/
def toLogEntry (e : PooledEntry) : LogEntry :=
  ⟨e.headerBuf.take e.headerSize,e.payload,e.readOff⟩

theorem length_header (e : PooledEntry) : (e.headerBuf.take e.headerSize).length = e.headerSize :=
  List.length_take_of_le (e.length_headerBuf ▸ e.headerSize_le)

theorem toLogEntry_len (e : PooledEntry) : e.toLogEntry.len = e.len := by
  rw [LogEntry.len,toLogEntry,e.length_header,len]

theorem flatten_writeTo (e : PooledEntry) : e.writeTo.flatten = e.toLogEntry.bytes := by
  unfold writeTo
  split_ifs with hempty
  · rw [List.length_eq_zero_iff] at hempty
    simp [LogEntry.bytes,toLogEntry,hempty]
  · simp [LogEntry.bytes,toLogEntry]

theorem leBytes_mod (n k x : ℕ) : leBytes n (x%256^(n+k)) = leBytes n x := by
  induction n generalizing x with
  | zero => rfl
  | succ n ih =>
    have hbyte : UInt8.ofNat (x%256^(n+1+k)) = UInt8.ofNat x := by
      apply UInt8.toNat_inj.mp
      rw [UInt8.toNat_ofNat',UInt8.toNat_ofNat',show n+1+k = (n+k)+1 by omega,pow_succ,
        Nat.mod_mul_left_mod]
    have hrest : x%256^(n+1+k)/256 = x/256%256^(n+k) := by
      rw [show n+1+k = (n+k)+1 by omega,pow_succ,mul_comm,Nat.mod_mul_right_div_self]
    rw [leBytes,leBytes,hbyte,hrest,ih]

theorem leBytes_toU32 {x : ℤ} (h : 0 ≤ x) : (leBytes 4 (toU32 x)).take 3 = leBytes 3 x.toNat := by
  have hmod : toU32 x = x.toNat%256^(3+1) := by
    unfold toU32
    norm_num
    omega
  rw [leBytes_append 3 1,List.take_append_of_le_length (by simp),
    List.take_of_length_le (by simp),hmod,leBytes_mod]

section Fields

variable {buf : List UInt8} (hbuf : buf.length = 32) {packetSize : ℤ} (hsize : 0 ≤ packetSize)
include hbuf hsize

theorem take_typed (code : UInt8) :
    (put (put buf 4 (leBytes 4 (toU32 packetSize))) 7 [code]).take 8 =
      buf.take 4++(leBytes 3 packetSize.toNat++[code]) := by
  have hsized : (put buf 4 (leBytes 4 (toU32 packetSize))).length = 32 :=
    (length_put (by simp [hbuf])).trans hbuf
  rw [take_put (by omega) (by simp) (by omega),take_put (by omega) (by simp) (by omega),
    leBytes_toU32 hsize,List.append_assoc]
  rfl

theorem take_offset (code : UInt8) (offset : ℤ) :
    (put (put (put buf 4 (leBytes 4 (toU32 packetSize))) 7 [code]) 8
      (leBytes 8 (toU64 offset))).take 16 =
      buf.take 4++(leBytes 3 packetSize.toNat++[code]++leBytes 8 (toU64 offset)) := by
  have htyped := length_typed hbuf packetSize code
  have hall : (leBytes 8 (toU64 offset)).take (16-8) = leBytes 8 (toU64 offset) :=
    List.take_of_length_le (by simp)
  rw [take_put (by omega) (by simp) (by omega),take_typed hbuf hsize,hall,List.append_assoc]

/-- The part of the header under the checksum. -/
theorem drop_take_fill (pType : EntryType) (offset length : ℤ) :
    ((fill buf pType packetSize offset length).take (headerSizeOf pType)).drop 4 =
      leBytes 3 packetSize.toNat++[pType.code]++match pType with
        | .data => leBytes 8 (toU64 offset)
        | .trim => leBytes 8 (toU64 offset)++leBytes 8 (toU64 length)
        | .footer => [] := by
  have hfour : (buf.take 4).length = 4 := List.length_take_of_le (by omega)
  cases pType with
  | data =>
    show List.drop 4 (List.take 16 _) = _
    rw [fill,take_offset hbuf hsize,List.drop_left' hfour]
  | trim =>
    have hoffset := length_offset hbuf packetSize EntryType.trim.code offset
    have hall : (leBytes 8 (toU64 length)).take (24-16) = leBytes 8 (toU64 length) :=
      List.take_of_length_le (by simp)
    show List.drop 4 (List.take 24 _) = _
    rw [fill,take_put (by omega) (by simp) (by omega),take_offset hbuf hsize,hall,
      List.append_assoc,List.drop_left' hfour,List.append_assoc]
  | footer =>
    show List.drop 4 (List.take 8 _) = _
    rw [fill,take_typed hbuf hsize,List.drop_left' hfour,List.append_nil]

end Fields

/-- The header does not depend on what the buffer held before. -/
theorem toLogEntry_makeLogEntry (e : PooledEntry) (pType : EntryType) (offset : ℤ) {length : ℤ}
    (hlength : 0 ≤ length) (data : Option (List UInt8)) :
    (e.makeLogEntry pType offset length data).toLogEntry =
      Wal.makeLogEntry pType offset length (data.getD []) := by
  have hsize : 0 ≤ packetSizeOf length pType := by
    cases pType <;> simp only [packetSizeOf,entryBaseSize] <;> omega
  have hfields := drop_take_fill e.length_headerBuf hsize pType offset length
  have hfour : 4 ≤ headerSizeOf pType := by cases pType <;> decide
  have hheader : (e.makeLogEntry pType offset length data).headerBuf.take (headerSizeOf pType) =
      (Wal.makeLogEntry pType offset length (data.getD [])).header := by
    rw [makeLogEntry,take_put_zero (by rw [length_leBytes]; exact hfour),length_leBytes,hfields]
    cases pType with
    | data =>
      have hdata : (packetSizeOf length .data).toNat = entryBaseSize+8+length.toNat := by
        simp only [packetSizeOf,entryBaseSize]
        omega
      simp only [hdata]
      rfl
    | trim => rfl
    | footer => rfl
  exact congrArg (fun h => (⟨h,data.getD [],0⟩ : LogEntry)) hheader

theorem copyHeader_eq (e : PooledEntry) (n : ℕ) :
    e.copyHeader n = .ok (((e.headerBuf.take e.headerSize).drop e.readOff).take n) := by
  unfold copyHeader
  split_ifs with hoff
  · rw [sliceOf_eq hoff.le (e.length_headerBuf ▸ e.headerSize_le)]
    rfl
  · have hlen := e.length_header
    rw [List.drop_eq_nil_of_le (by omega),List.take_nil]

/-- The payload is only read with the cursor behind the header. -/
theorem copyData_eq (e : PooledEntry) {readOff headerN n : ℕ}
    (hhead : headerN < n → e.headerSize ≤ readOff) (h : readOff ≤ e.len) :
    e.copyData readOff headerN n = .ok (if headerN < n then
      (e.payload.drop (readOff-e.headerSize)).take (n-headerN) else []) := by
  unfold copyData
  rcases hdata : e.data with _ | data
  · simp [payload,hdata]
  · have hpay : e.payload = data := by simp [payload,hdata]
    simp only [hpay]
    split_ifs with hn
    · have hle := hhead hn
      rw [len,hpay] at h
      rw [show (readOff : ℤ)-(e.headerSize : ℤ) = ((readOff-e.headerSize : ℕ) : ℤ) by omega,
        sliceOf_eq (by omega) le_rfl,List.take_length]
      rfl
    · rfl

/-- The cursor moves by at most `n`. -/
def advance (e : PooledEntry) (n : ℕ) : PooledEntry :=
  {e with readOff := min (e.readOff+n) e.len}

@[simp] theorem advance_readOff (e : PooledEntry) (n : ℕ) :
    (e.advance n).readOff = min (e.readOff+n) e.len := rfl

@[simp] theorem advance_len (e : PooledEntry) (n : ℕ) : (e.advance n).len = e.len := rfl

@[simp] theorem advance_writeTo (e : PooledEntry) (n : ℕ) : (e.advance n).writeTo = e.writeTo := rfl

theorem length_writeTo (e : PooledEntry) : e.writeTo.flatten.length = e.len := by
  rw [flatten_writeTo,LogEntry.length_bytes,toLogEntry_len]

/-- `Read` stays inside the header and the payload while the cursor is inside the entry. -/
theorem read_eq {e : PooledEntry} (h : e.readOff ≤ e.len) (n : ℕ) :
    e.read n = .ok ((e.writeTo.flatten.drop e.readOff).take n,e.advance n,
      if e.len ≤ e.readOff+n then some .eof else none) := by
  have hlen := e.length_header
  have hlog := LogEntry.read_eq (e := e.toLogEntry) (by rw [toLogEntry_len]; exact h) n
  rw [toLogEntry_len] at hlog
  simp only [LogEntry.read,toLogEntry,hlen,Prod.mk.injEq,LogEntry.mk.injEq,true_and] at hlog
  generalize hhead : ((e.headerBuf.take e.headerSize).drop e.readOff).take n = head at hlog
  have hheadLen : head.length = min n (e.headerSize-e.readOff) := by
    rw [← hhead,List.length_take,List.length_drop,hlen]
  have hlenEq : e.len = e.headerSize+e.payload.length := rfl
  obtain ⟨hbytes,hoff,hend⟩ := hlog
  unfold read
  rw [copyHeader_eq,hhead]
  simp only [bind,Except.bind]
  rw [copyData_eq e (by omega) (by omega)]
  have hiff : min (e.readOff+n) e.len = e.len ↔ e.len ≤ e.readOff+n := by omega
  simp only [hoff,hiff,hbytes,flatten_writeTo]
  rfl

/-- The results of calls of `Read` with buffers of the given sizes. -/
def reads (e : PooledEntry) : List ℕ → Exec (List (List UInt8 × Option Error))
  | [] => .ok []
  | n::ns => do
    let (bs,e',err) ← e.read n
    let out ← e'.reads ns
    .ok ((bs,err)::out)

/-- `ReadFrom` of a file that reads with buffers of the given sizes: the chunks that it has when it
reads the end, if it gets there. -/
def readFrom (e : PooledEntry) : List ℕ → Exec (Option (List (List UInt8)))
  | [] => .ok none
  | n::ns => do
    let (bs,e',err) ← e.read n
    if err = some .eof then .ok (some [bs])
    else do
      let rest ← e'.readFrom ns
      .ok (rest.map fun chunks => bs::chunks)

/-- What is read next is behind what was read. -/
theorem drop_advance (e : PooledEntry) (n : ℕ) :
    (e.advance n).writeTo.flatten.drop (e.advance n).readOff =
      (e.writeTo.flatten.drop e.readOff).drop n := by
  have hlen := e.length_writeTo
  rw [advance_writeTo,advance_readOff,List.drop_drop]
  rcases le_total (e.readOff+n) e.len with hle | hge
  · rw [min_eq_left hle]
  · rw [min_eq_right hge,List.drop_eq_nil_of_le (by omega),List.drop_eq_nil_of_le (by omega)]

/-- The chunks follow each other, and the end is read with the last byte. -/
theorem reads_eq {e : PooledEntry} (h : e.readOff ≤ e.len) (ns : List ℕ) :
    ∃ out, e.reads ns = .ok out ∧ out.length = ns.length ∧ ∀ k < ns.length,
      ((out.take (k+1)).map Prod.fst).flatten =
        (e.writeTo.flatten.drop e.readOff).take (ns.take (k+1)).sum ∧
      (out[k]?.map Prod.snd) =
        some (if e.len ≤ e.readOff+(ns.take (k+1)).sum then some .eof else none) := by
  induction ns generalizing e with
  | nil => exact ⟨[],rfl,rfl,fun k hk => absurd hk (Nat.not_lt_zero k)⟩
  | cons n ns ih =>
    obtain ⟨out,hout,hlen,hall⟩ := ih (e := e.advance n) (min_le_right _ _)
    refine ⟨((e.writeTo.flatten.drop e.readOff).take n,
      if e.len ≤ e.readOff+n then some .eof else none)::out,?_,by simp [hlen],fun k hk => ?_⟩
    · rw [reads,read_eq h]
      simp only [bind,Except.bind,hout]
    · cases k with
      | zero => simp
      | succ k =>
        obtain ⟨hflat,hend⟩ := hall k (by simpa using hk)
        rw [List.take_succ_cons,List.map_cons,List.flatten_cons,hflat,drop_advance,← List.take_add,
          List.take_succ_cons,List.sum_cons]
        refine ⟨rfl,?_⟩
        rw [List.getElem?_cons_succ,hend,advance_len,advance_readOff]
        congr 2
        rw [eq_iff_iff]
        omega

/-- A file that has buffers for the whole entry reads the end, and then it has the entry. -/
theorem readFrom_eq {e : PooledEntry} (h : e.readOff ≤ e.len) {ns : List ℕ} (hne : ns ≠ [])
    (hns : e.len ≤ e.readOff+ns.sum) :
    ∃ chunks, e.readFrom ns = .ok (some chunks) ∧
      chunks.flatten = e.writeTo.flatten.drop e.readOff := by
  induction ns generalizing e with
  | nil => exact absurd rfl hne
  | cons n ns ih =>
    have hlen := e.length_writeTo
    rw [readFrom,read_eq h]
    simp only [bind,Except.bind]
    by_cases hend : e.len ≤ e.readOff+n
    · refine ⟨[(e.writeTo.flatten.drop e.readOff).take n],by simp [hend],?_⟩
      rw [List.flatten_singleton,List.take_of_length_le (by rw [List.length_drop]; omega)]
    · rw [List.sum_cons] at hns
      have hne' : ns ≠ [] := by
        rintro rfl
        simp only [List.sum_nil] at hns
        omega
      obtain ⟨chunks,hchunks,hflat⟩ := ih (e := e.advance n) (min_le_right _ _) hne'
        (by rw [advance_len,advance_readOff]; omega)
      refine ⟨(e.writeTo.flatten.drop e.readOff).take n::chunks,by simp [hend,hchunks],?_⟩
      rw [List.flatten_cons,hflat,drop_advance,List.take_append_drop]

/-- The entries of the pool are what the log is written with. -/
theorem writeLogEntry_pooled (w : Writer) (f : File) (e : PooledEntry) (pType : EntryType)
    (offset : ℤ) {length : ℤ} (hlength : 0 ≤ length) (data : Option (List UInt8))
    (fault : Option ℕ) :
    w.writeLogEntry f (Wal.makeLogEntry pType offset length (data.getD [])) fault =
      ((f.writeMany fault (e.makeLogEntry pType offset length data).writeTo).1,
        (f.writeMany fault (e.makeLogEntry pType offset length data).writeTo).2.2) := by
  rw [w.writeLogEntry_eq f rfl,File.writeMany_eq,flatten_writeTo,
    toLogEntry_makeLogEntry e pType offset hlength]

end PooledEntry

/-- An entry is the same bytes for every way to take it. Reads with any buffers return its bytes in
order, `io.EOF` comes with a read exactly when that read or one before it has returned the last
byte, and a file that reads up to the end is left as by `WriteTo`, whatever fails. -/
theorem streamed_eq_direct (pooled : PooledEntry) (pType : EntryType) (offset length : ℤ)
    (data : Option (List UInt8)) (ns : List ℕ) :
    let e := pooled.makeLogEntry pType offset length data
    e.writeTo.flatten.length = e.len ∧
    (∃ out, e.reads ns = .ok out ∧ out.length = ns.length ∧ ∀ k < ns.length,
      ((out.take (k+1)).map Prod.fst).flatten = e.writeTo.flatten.take (ns.take (k+1)).sum ∧
      (out[k]?.map Prod.snd = some (some .eof) ↔
        ((out.take (k+1)).map Prod.fst).flatten = e.writeTo.flatten) ∧
      (out[k]?.map Prod.snd = some none ↔
        ((out.take (k+1)).map Prod.fst).flatten ≠ e.writeTo.flatten)) ∧
    (e.len ≤ ns.sum → ∃ chunks, e.readFrom ns = .ok (some chunks) ∧
      chunks.flatten = e.writeTo.flatten ∧
      ∀ (f : File) (fault : Option ℕ), f.writeMany fault chunks = f.writeMany fault e.writeTo) := by
  intro e
  have hlen := e.length_writeTo
  have hpos : 0 < e.len := by
    show 0 < PooledEntry.headerSizeOf pType+_
    cases pType <;> simp [PooledEntry.headerSizeOf,entryBaseSize]
  refine ⟨hlen,?_,fun hns => ?_⟩
  · obtain ⟨out,hout,hcount,hall⟩ := PooledEntry.reads_eq (e := e) (Nat.zero_le _) ns
    refine ⟨out,hout,hcount,fun k hk => ?_⟩
    obtain ⟨hflat,hend⟩ := hall k hk
    have hzero : e.readOff = 0 := rfl
    rw [hzero,List.drop_zero] at hflat
    rw [hzero,zero_add] at hend
    have hfull : ((out.take (k+1)).map Prod.fst).flatten = e.writeTo.flatten ↔
        e.len ≤ (ns.take (k+1)).sum := by
      rw [hflat,List.take_eq_self_iff,hlen]
    refine ⟨hflat,?_,?_⟩
    · rw [hend,hfull]
      split_ifs with hle <;> simp [hle]
    · rw [hend,Ne,hfull]
      split_ifs with hle <;> simp [hle]
  · have hne : ns ≠ [] := by
      rintro rfl
      simp only [List.sum_nil] at hns
      omega
    obtain ⟨chunks,hchunks,hflat⟩ := PooledEntry.readFrom_eq (e := e) (Nat.zero_le _) hne
      (by rw [show e.readOff = 0 from rfl]; omega)
    rw [show e.readOff = 0 from rfl,List.drop_zero] at hflat
    refine ⟨chunks,hchunks,hflat,fun f fault => ?_⟩
    rw [File.writeMany_eq,File.writeMany_eq,hflat]

end Wal
end Logblock
