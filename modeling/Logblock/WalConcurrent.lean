import Logblock.Transition
import Logblock.WalCorrupt

/-! Concurrent calls on one log. A call that writes appends its entry under the write lock and
takes the index lock before it lets the write lock go, so the index follows the order of the
file. A read lets the index lock go around every read of the file. -/
namespace Logblock
namespace Wal

open Bytes ByteStream Loop Runs Transition Relation

namespace Writer

/-- The first half of `logAndIndex`, under the write lock. -/
def appendEntry (w : Writer) (f : File) (e : LogEntry) (fault : Option ℕ) :
    Writer × File × Option Error :=
  if w.isOpen then
    match w.writeLogEntry f e fault with
    | (f',some err) => (w,f',some err)
    | (f',none) => ({ w with offset := i64 (w.offset+e.len) },f',none)
  else (w,f,some errWriterClosed)

/-- The second half, under the index lock. -/
def updateIndex (w : Writer) (off length : ℤ) (lr : LogRecord) : Exec Writer := do
  let index ← w.index.add (toU64 off) (toU64 length) lr
  .ok { w with index := index, endOff := moveEnd w.endOff off length }

theorem logAndIndex_eq (w : Writer) (f : File) (e : LogEntry) (off length : ℤ) (lr : LogRecord)
    (fault : Option ℕ) : w.logAndIndex f e off length lr fault =
      match w.appendEntry f e fault with
      | (w',f',some err) => .ok (w',f',some err)
      | (w',f',none) => (w'.updateIndex off length lr).bind fun w'' => .ok (w'',f',none) := by
  unfold logAndIndex appendEntry
  by_cases ho : w.isOpen = true
  · rw [if_pos ho,if_pos ho]
    rcases w.writeLogEntry f e fault with ⟨f',err⟩
    cases err with
    | some err => rfl
    | none =>
      simp only [updateIndex,bind]
      cases w.index.add (toU64 off) (toU64 length) lr <;> rfl
  · rw [if_neg ho,if_neg ho]

end Writer

namespace Concurrent

/-- Where a read is. Between the two locks around a read of the file it only knows the part
of the log that it is to read. -/
inductive ReadPhase
  | idle
  | looking (n : ℕ) (off : ℤ) (out : List UInt8)
  | fetching (n : ℕ) (off : ℤ) (out : List UInt8) (logOff : ℤ) (readLen : ℕ)
  | finished (out : List UInt8) (err : Option Error)
  deriving DecidableEq

/-- A pass of `ReadAtFrom` up to the read of the file, under the index lock. -/
def readLookup (index : Index) (n : ℕ) (off : ℤ) (out : List UInt8) : Exec ReadPhase :=
  if n = 0 then .ok (.finished out none)
  else
    match index.getWithRange (toU64 off) with
    | none =>
      match index.nextKey (toU64 off) with
      | none => .ok (.finished out (some .eof))
      | some nextOffset =>
        let zeroLen := min (n : ℤ) (i64 (i64 nextOffset-off))
        if zeroLen < 0 then .error (.panic "slice bounds out of range")
        else .ok (.looking (n-zeroLen.toNat) (i64 (off+zeroLen))
          (out++List.replicate zeroLen.toNat 0))
    | some mr =>
      let eEnd := i64 (mr.offset+mr.length : ℕ)
      let readLen := min (n : ℤ) (i64 (eEnd-off))
      let lr := mr.value
      let lrOff := i64 (off-lr.offset)
      let lrRem := i64 (lr.length-lrOff)
      if lrOff < 0 ∨ lrRem < 0 then .error (.panic "lrOff < 0 || lrRem < 0")
      else if readLen > lrRem then .error (.panic "unexpected readLen > lrRem")
      else if readLen < 0 then .error (.panic "slice bounds out of range")
      else if lr.zero then .ok (.looking (n-readLen.toNat) (i64 (off+readLen))
        (out++List.replicate readLen.toNat 0))
      else .ok (.fetching n off out (i64 (lr.logOffset+lrOff)) readLen.toNat)

/-- The rest of the pass: the read of the file, with the index unlocked. -/
def readFetch (file : List UInt8) (n : ℕ) (off : ℤ) (out : List UInt8) (logOff : ℤ)
    (readLen : ℕ) : ReadPhase :=
  match readAt file logOff readLen with
  | (_,some err) => .finished out (some err)
  | (bs,none) => .looking (n-readLen) (i64 (off+readLen)) (out++bs)

/-- A phase as the outcome of a pass, if no file read is left to do. -/
def ReadPhase.outcome : ReadPhase → Option ((ℕ × ℤ × List UInt8) ⊕ (List UInt8 × Option Error))
  | looking n off out => some (.inl (n,off,out))
  | finished out err => some (.inr (out,err))
  | _ => none

/-- Both parts together are a pass of the read loop. -/
theorem readBody_eq (file : List UInt8) (index : Index) (n : ℕ) (off : ℤ) (out : List UInt8) :
    (readLookup index n off out).map (fun phase => match phase with
      | .fetching n off out logOff readLen => (readFetch file n off out logOff readLen).outcome
      | phase => phase.outcome) = (readBody file index (n,off,out)).map some := by
  by_cases hn : n = 0
  · simp only [readLookup,readBody,if_pos hn]
    rfl
  · simp only [readLookup,readBody,if_neg hn]
    cases index.getWithRange (toU64 off) with
    | none =>
      cases index.nextKey (toU64 off) with
      | none => rfl
      | some nextOffset =>
        simp only
        split_ifs <;> rfl
    | some mr =>
      simp only
      split_ifs with h₁ h₂ h₃ hz
      · rfl
      · rfl
      · rfl
      · rfl
      · have hcast := Int.toNat_of_nonneg (not_lt.mp h₃)
        simp only [Except.map,readFetch]
        rcases readAt file _ _ with ⟨bs,err⟩
        cases err with
        | some err => rfl
        | none => simp only [ReadPhase.outcome,hcast]

/-- What a lookup of `n` bytes from `x` on leads to. -/
inductive Looked (file : List UInt8) (index : Index) (n x : ℕ) (out : List UInt8) : ReadPhase → Prop
  | finished (err : Option Error) : Looked file index n x out (.finished out err)
  | looking (r : ℕ) : x+r < 2^64 → Looked file index n x out (.looking (n-r) (i64 (x+r : ℕ))
      (out++(List.range' x r).map fun y => (content file index y).getD 0))
  | fetching (logOff : ℤ) (r : ℕ) : x+r < 2^64 → readAt file logOff r =
      ((List.range' x r).map fun y => (content file index y).getD 0,none) →
      Looked file index n x out (.fetching n (i64 x) out logOff r)

theorem readLookup_fetching {index : Index} {n n' readLen : ℕ} {off off' logOff : ℤ}
    {out out' : List UInt8}
    (h : readLookup index n off out = .ok (.fetching n' off' out' logOff readLen)) :
    n' = n ∧ off' = off ∧ out' = out := by
  unfold readLookup at h
  by_cases hn : n = 0
  · rw [if_pos hn] at h
    cases h
  · rw [if_neg hn] at h
    cases hg : index.getWithRange (toU64 off) with
    | none =>
      rw [hg] at h
      cases hk : index.nextKey (toU64 off) with
      | none =>
        rw [hk] at h
        cases h
      | some nextOffset =>
        rw [hk] at h
        simp only at h
        split_ifs at h
        cases h
    | some mr =>
      rw [hg] at h
      simp only at h
      split_ifs at h
      · cases h
      · cases h
        exact ⟨rfl,rfl,rfl⟩

theorem lookup_spec {file : List UInt8} {index : Index} (h : Readable file index) (n : ℕ) {x : ℕ}
    (hx : x < 2^64) (out : List UInt8) : ∃ phase,
      readLookup index n (i64 x) out = .ok phase ∧ Looked file index n x out phase := by
  by_cases hn : n = 0
  · exact ⟨_,by rw [readLookup,if_pos hn],.finished none⟩
  by_cases hlt : x < index.endKey
  · have hend := h.endKey_lt
    obtain ⟨r,hr,hrle,hbody⟩ := h.readBody_of_lt (Nat.pos_of_ne_zero hn) hlt out
    have heq := readBody_eq file index n (i64 x) out
    rw [hbody] at heq
    cases hphase : readLookup index n (i64 x) out with
    | error fault =>
      rw [hphase] at heq
      cases heq
    | ok phase =>
      rw [hphase] at heq
      refine ⟨phase,rfl,?_⟩
      have heq := Except.ok.inj heq
      cases phase with
      | idle => cases heq
      | finished out' err => cases heq
      | looking n' off' out' =>
        cases heq
        exact .looking r (by omega)
      | fetching n' off' out' logOff readLen =>
        obtain ⟨rfl,rfl,rfl⟩ := readLookup_fetching hphase
        simp only [readFetch] at heq
        rcases hread : readAt file logOff readLen with ⟨bs,err⟩
        rw [hread] at heq
        cases err with
        | some err => cases heq
        | none =>
          simp only [ReadPhase.outcome,Option.some.injEq,Sum.inl.injEq,Prod.mk.injEq,
            List.append_cancel_left_eq] at heq
          have hlen : readLen = r := by
            rw [← (readAt_eq_ok hread).2.2,heq.2.2]
            simp
          subst hlen
          exact .fetching logOff readLen (by omega) (by rw [hread,heq.2.2])
  · obtain ⟨hg,hk⟩ := h.lookup_of_ge (not_lt.mp hlt)
    exact ⟨.finished out (some .eof),by simp only [readLookup,if_neg hn,toU64_i64_natCast hx,hg,hk],
      .finished _⟩

/-- The writer, its file, the call that holds the index lock for writing, and the reads. -/
structure Config where
  writer : Writer
  file : File
  holder : Option (Op × LogRecord)
  reads : ℕ → ReadPhase

inductive Action
  | append (op : Op)
  | update
  | startRead (i n : ℕ) (off : ℤ)
  | lookup (i : ℕ)
  | fetch (i : ℕ)

namespace Config

def new (rf : Option ℕ) : Config := ⟨Writer.new rf,.empty,none,fun _ => .idle⟩

def setRead (c : Config) (i : ℕ) (phase : ReadPhase) : Config :=
  { c with reads := Function.update c.reads i phase }

/-- A step, if it is enabled. The device does not fail, and a read may be overtaken by a writer
wherever it does not look at the index. -/
def step (codec : Codec) (c : Config) : Action → Exec (Option Config)
  | .append op =>
    match c.holder with
    | some _ => .ok none
    | none =>
      match c.writer.writeHeader codec c.file none with
      | (_,_,some _) => .ok none
      | (w,f,none) =>
        match w.appendEntry f op.entry none with
        | (_,_,some _) => .ok none
        | (w',f',none) => .ok (some { c with
          writer := w'
          file := f'
          holder := some (op,op.logRecord (i64 (w.offset+op.entry.header.length))) })
  | .update =>
    match c.holder with
    | none => .ok none
    | some (op,lr) => do
      let w ← c.writer.updateIndex op.off op.length lr
      .ok (some { c with writer := w, holder := none })
  | .startRead i n off =>
    match c.reads i with
    | .idle =>
      .ok (if -2^63 ≤ off ∧ off < 2^63 then some (c.setRead i (.looking n off [])) else none)
    | _ => .ok none
  | .lookup i =>
    match c.holder,c.reads i with
    | none,.looking n off out => do
      let phase ← readLookup c.writer.index n off out
      .ok (some (c.setRead i phase))
    | _,_ => .ok none
  | .fetch i =>
    match c.reads i with
    | .fetching n off out logOff readLen =>
      .ok (some (c.setRead i (readFetch c.file.bytes n off out logOff readLen)))
    | _ => .ok none

def Step (codec : Codec) (c c' : Config) : Prop := ∃ a, c.step codec a = .ok (some c')

end Config

section Scan

variable {codec : Codec} {ops : List Op}

/-- The calls before the first trim are writes. -/
theorem exists_first_trim {t : Trim} (h : .trim t ∈ ops) :
    ∃ (ws : List Write) (t : Trim) (rest : List Op), ops = ws.map .write++.trim t::rest := by
  induction ops with
  | nil => cases h
  | cons op ops ih =>
    cases op with
    | trim t => exact ⟨[],t,ops,rfl⟩
    | write wr =>
      obtain ⟨ws,t,rest,rfl⟩ := ih ((List.mem_cons.mp h).resolve_left (by simp))
      exact ⟨wr::ws,t,rest,rfl⟩

theorem storedType_trim (t : Trim) (rest : List UInt8) :
    storedType ((Op.trim t).entry.bytes++rest) = EntryType.trim.code := by
  simp only [storedType,Op.entry,LogEntry.bytes,makeLogEntry,List.append_nil,List.append_assoc]
  rw [List.getD_append_right _ _ _ _ (by simp),length_leBytes,
    List.getD_append_right _ _ _ _ (by simp),length_leBytes]
  rfl

/-- The scan of a log panics at its first trim. -/
theorem newReader_panics_of_trim {t : Trim} (h : .trim t ∈ ops)
    (hlen : (opsLog codec ops).length < 2^63) {size : ℤ}
    (hfooter : FooterNotTaken codec (opsLog codec ops) size) :
    newReader codec (opsLog codec ops) size = .error (.panic "Unsupported") := by
  obtain ⟨ws,t,rest,rfl⟩ := exists_first_trim h
  obtain ⟨index,hindex⟩ := exists_indexOf codec ws
  have hlog : opsLog codec (ws.map .write++.trim t::rest) =
      logBytes codec ws++((Op.trim t).entry.bytes++opsBytes rest) := opsLog_append codec _ _
  have h8 : 8 ≤ ((Op.trim t).entry.bytes++opsBytes rest).length := by
    have : (Op.trim t).entry.len = 24 := by simp [Op.entry,LogEntry.len,makeLogEntry]
    rw [List.length_append,LogEntry.length_bytes]
    omega
  rw [hlog] at hlen hfooter ⊢
  rw [List.length_append] at hlen
  obtain ⟨fuel,hreach⟩ := newReader_reaches (by omega) hindex hfooter
  rw [hreach]
  refine run_fault ?_ _
  rw [scanBody_any _ _ rfl h8,storedType_trim,if_neg (by decide),if_pos rfl]

end Scan

section Writing

variable {codec : Codec} {w w' : Writer} {f f' : File}

theorem writeHeader_of_none (hh : w.headerOnce = none) (ho : w.isOpen = true)
    (h : w.writeHeader codec f none = (w',f',none)) :
    f'.bytes = f.bytes++headerBytes codec ∧
      w' = { w with headerOnce := some none, offset := (headerBytes codec).length } := by
  simp only [Writer.writeHeader,hh,ho,if_true,File.writeMany_eq,flatten_header] at h
  cases hf : f.fails (headerBytes codec).length none with
  | true => simp [File.write,hf] at h
  | false =>
    simp only [File.write,hf,Bool.false_eq_true,if_false,File.not_fails hf,Prod.mk.injEq,
      and_true] at h
    obtain ⟨rfl,rfl⟩ := h
    exact ⟨by rw [File.grow_bytes,File.not_fails hf,List.take_length],by rw [ho]⟩

theorem writeHeader_of_some (hh : w.headerOnce = some none) (fault : Option ℕ) :
    w.writeHeader codec f fault = (w,f,none) := by
  simp only [Writer.writeHeader,hh]

theorem appendEntry_ok (ho : w.isOpen = true) {e : LogEntry} (he : e.readOff = 0)
    (h : w.appendEntry f e none = (w',f',none)) :
    f'.bytes = f.bytes++e.bytes ∧ w' = { w with offset := i64 (w.offset+e.len) } := by
  rw [Writer.appendEntry,if_pos ho,Writer.writeLogEntry_eq w f he] at h
  cases hf : f.fails e.bytes.length none with
  | true =>
    simp only [File.write,hf,if_true,Prod.mk.injEq,reduceCtorEq,and_false] at h
  | false =>
    simp only [File.write,hf,Bool.false_eq_true,if_false,Prod.mk.injEq,and_true] at h
    obtain ⟨rfl,rfl⟩ := h
    exact ⟨by rw [File.grow_bytes,File.not_fails hf,List.take_length],rfl⟩

end Writing

/-- The call whose entry is in the file but not yet in the index. -/
def Config.pending (c : Config) : List Op :=
  match c.holder with
  | none => []
  | some (op,_) => [op]

/-- The offset of a read that is under way is an `int64`. -/
def ReadPhase.Valid : ReadPhase → Prop
  | looking _ off _ => ∃ x < 2^64, off = i64 (x : ℕ)
  | fetching _ off _ _ _ => ∃ x < 2^64, off = i64 (x : ℕ)
  | _ => True

/-- The calls `ops` are indexed; their entries and then that of the holder are in the file. -/
structure Ordered (codec : Codec) (c : Config) (ops : List Op) : Prop where
  isOpen : c.writer.isOpen = true
  log : (c.writer.headerOnce = none ∧ c.file.bytes = [] ∧ ops = [] ∧ c.holder = none) ∨
    (c.writer.headerOnce = some none ∧ c.file.bytes = opsLog codec (ops++c.pending) ∧
      c.writer.offset = c.file.bytes.length)
  index : IndexOfOps codec ops c.writer.index
  endOff : c.writer.endOff = opsEnd ops
  record : ∀ op lr, c.holder = some (op,lr) → lr = op.logRecord ((opsLog codec ops).length+16)
  reads : ∀ i, (c.reads i).Valid

namespace Ordered

variable {codec : Codec} {c c' : Config} {ops : List Op}

theorem new (codec : Codec) (rf : Option ℕ) : Ordered codec (Config.new rf) [] :=
  ⟨rfl,.inl ⟨rfl,rfl,rfl,rfl⟩,rfl,rfl,(fun _ _ h => by cases h),fun _ => trivial⟩

/-- The index can be read: all that it maps is in the file. -/
theorem readable (h : Ordered codec c ops) : Readable c.file.bytes c.writer.index := by
  have hsmall := c.file.small
  rcases h.log with ⟨-,hfile,rfl,-⟩ | ⟨-,hfile,-⟩
  · have hindex : c.writer.index = .empty := (Except.ok.inj h.index).symm
    rw [hindex]
    exact ⟨ExtentRangeMap.empty_wf,by simp [ExtentRangeMap.empty],by simp,hsmall⟩
  · rw [opsLog_append] at hfile
    rw [hfile] at hsmall ⊢
    exact h.index.readable hsmall

theorem content (h : Ordered codec c ops) :
    Wal.content c.file.bytes c.writer.index = stored ops := by
  rcases h.log with ⟨-,hfile,rfl,-⟩ | ⟨-,hfile,-⟩
  · have hindex : c.writer.index = .empty := (Except.ok.inj h.index).symm
    rw [hindex]
    rfl
  · rw [hfile,opsLog_append]
    exact h.index.content

/-- What `writeHeader` leaves when no writer holds the lock. -/
theorem header (h : Ordered codec c ops) (hh : c.holder = none) {w : Writer} {f : File}
    (hw : c.writer.writeHeader codec c.file none = (w,f,none)) : w.isOpen = true ∧
      w.headerOnce = some none ∧ f.bytes = opsLog codec ops ∧ w.offset = f.bytes.length ∧
      w.index = c.writer.index ∧ w.endOff = c.writer.endOff ∧
      ∃ more, f.bytes = c.file.bytes++more := by
  rcases h.log with ⟨hnone,hfile,rfl,-⟩ | ⟨hsome,hfile,hoff⟩
  · obtain ⟨hb,rfl⟩ := writeHeader_of_none hnone h.isOpen hw
    rw [hfile,List.nil_append] at hb
    have hlog : f.bytes = opsLog codec [] := by rw [hb,opsLog,opsBytes]; simp
    exact ⟨h.isOpen,rfl,hlog,by rw [hb],rfl,rfl,f.bytes,by rw [hfile,List.nil_append]⟩
  · rw [writeHeader_of_some hsome] at hw
    simp only [Prod.mk.injEq,and_true] at hw
    obtain ⟨rfl,rfl⟩ := hw
    have hp : c.pending = [] := by rw [Config.pending,hh]
    rw [hp,List.append_nil] at hfile
    exact ⟨h.isOpen,hsome,hfile,hoff,rfl,rfl,[],(List.append_nil _).symm⟩

/-- An append adds the entry of its call and takes the lock. -/
theorem step_append (h : Ordered codec c ops) {op : Op}
    (hs : c.step codec (.append op) = .ok (some c')) :
    Ordered codec c' ops ∧ c'.pending = [op] ∧ c'.reads = c.reads ∧
      ∃ more, c'.file.bytes = c.file.bytes++more := by
  simp only [Config.step] at hs
  cases hh : c.holder with
  | some p =>
    rw [hh] at hs
    cases hs
  | none =>
    rw [hh] at hs
    rcases hw : c.writer.writeHeader codec c.file none with ⟨w,f,err⟩
    rw [hw] at hs
    cases err with
    | some err => cases hs
    | none =>
      obtain ⟨hopen,honce,hlog,hoff,hindex,hend,more,hmore⟩ := h.header hh hw
      rcases ha : w.appendEntry f op.entry none with ⟨w',f',err⟩
      simp only [ha] at hs
      cases err with
      | some err => cases hs
      | none =>
        simp only [Except.ok.injEq,Option.some.injEq] at hs
        obtain ⟨hf',rfl⟩ := appendEntry_ok hopen op.readOff_entry ha
        have hsmall := f'.small
        have hsmall' := hsmall
        rw [hf',List.length_append,LogEntry.length_bytes] at hsmall
        subst hs
        refine ⟨⟨hopen,.inr ⟨honce,?_,?_⟩,?_,?_,?_,h.reads⟩,rfl,rfl,more++op.entry.bytes,?_⟩
        · show f'.bytes = opsLog codec (ops++[op])
          rw [hf',hlog,opsLog_snoc]
        · show i64 (w.offset+op.entry.len) = (f'.bytes.length : ℤ)
          rw [hf',List.length_append,LogEntry.length_bytes,hoff,
            i64_of_range (by omega) (by omega),Nat.cast_add]
        · show IndexOfOps codec ops w.index
          rw [hindex]
          exact h.index
        · show w.endOff = opsEnd ops
          rw [hend]
          exact h.endOff
        · rintro o lr hlr
          simp only [Option.some.injEq,Prod.mk.injEq] at hlr
          obtain ⟨rfl,rfl⟩ := hlr
          cases op with
          | trim t => rfl
          | write wr =>
            have hhead : (Op.write wr).entry.header.length = 16 := dataEntry_header_length _ _
            have hlen : (Op.write wr).entry.len = 16+wr.data.length := wr.entry_len
            rw [hhead,hoff,hlog,i64_of_range (by omega) (by rw [← hlog]; omega)]
            rfl
        · show f'.bytes = _
          rw [hf',hmore,List.append_assoc]

/-- The update adds the record of the holder, and the index does not panic. -/
theorem step_update (h : Ordered codec c ops) {op : Op} {lr : LogRecord}
    (hh : c.holder = some (op,lr)) : ∃ c', c.step codec .update = .ok (some c') ∧
      Ordered codec c' (ops++[op]) ∧ c'.holder = none ∧ c'.reads = c.reads ∧ c'.file = c.file := by
  have hoff := op.off_lt
  have hlen := op.length_lt
  obtain ⟨index',hadd,hreplay⟩ := h.index.snoc op
  rw [← h.record op lr hh] at hadd
  have hup : c.writer.updateIndex op.off op.length lr = .ok { c.writer with
      index := index'
      endOff := Writer.moveEnd c.writer.endOff op.off op.length } := by
    simp only [Writer.updateIndex,toU64_natCast (show op.off < 2^64 by omega),
      toU64_natCast (show op.length < 2^64 by omega),hadd,bind,Except.bind]
  generalize hw : ({ c.writer with
      index := index'
      endOff := Writer.moveEnd c.writer.endOff op.off op.length } : Writer) = w at hup
  have hend : w.endOff = opsEnd (ops++[op]) := by
    rw [← hw,opsEnd_snoc,← h.endOff]
  have hindex : w.index = index' := by rw [← hw]
  have hrest : w.isOpen = c.writer.isOpen ∧ w.headerOnce = c.writer.headerOnce ∧
      w.offset = c.writer.offset := by
    rw [← hw]
    exact ⟨rfl,rfl,rfl⟩
  refine ⟨{ c with writer := w, holder := none },?_,?_,rfl,rfl,rfl⟩
  · simp only [Config.step,hh,hup,bind,Except.bind]
  · rcases h.log with ⟨-,-,-,hn⟩ | ⟨honce,hfile,ho⟩
    · rw [hn] at hh
      cases hh
    · rw [Config.pending,hh] at hfile
      refine ⟨hrest.1.trans h.isOpen,.inr ⟨hrest.2.1.trans honce,?_,hrest.2.2.trans ho⟩,?_,hend,
        (fun _ _ hn => by cases hn),h.reads⟩
      · show c.file.bytes = opsLog codec (ops++[op]++[])
        rw [List.append_nil]
        exact hfile
      · show IndexOfOps codec (ops++[op]) w.index
        rw [hindex]
        exact hreplay

theorem setRead (h : Ordered codec c ops) {i : ℕ} {phase : ReadPhase} (hv : phase.Valid) :
    Ordered codec (c.setRead i phase) ops := by
  refine ⟨h.isOpen,h.log,h.index,h.endOff,h.record,fun j => ?_⟩
  by_cases hj : j = i
  · subst hj
    simpa [Config.setRead] using hv
  · simpa [Config.setRead,hj] using h.reads j

/-- A lookup does not panic. -/
theorem step_lookup (h : Ordered codec c ops) {i n x : ℕ} {out : List UInt8} (hx : x < 2^64)
    (hh : c.holder = none) (hr : c.reads i = .looking n (i64 x) out) : ∃ phase,
      c.step codec (.lookup i) = .ok (some (c.setRead i phase)) ∧
      Looked c.file.bytes c.writer.index n x out phase := by
  obtain ⟨phase,hp,hl⟩ := lookup_spec h.readable n hx out
  exact ⟨phase,by simp only [Config.step,hh,hr,hp,bind,Except.bind],hl⟩

end Ordered

theorem Looked.valid {file : List UInt8} {index : Index} {n x : ℕ} {out : List UInt8}
    {phase : ReadPhase} (h : Looked file index n x out phase) : phase.Valid := by
  cases h with
  | finished => trivial
  | looking r hr => exact ⟨_,hr,rfl⟩
  | fetching logOff r hr _ => exact ⟨x,by omega,rfl⟩

theorem valid_readFetch {file out : List UInt8} {n readLen : ℕ} {off logOff : ℤ} :
    (readFetch file n off out logOff readLen).Valid := by
  unfold readFetch
  split
  · trivial
  · refine ⟨toU64 (off+readLen),toU64_lt _,?_⟩
    unfold i64 toU64
    omega

section Steps

variable {codec : Codec} {c c' : Config} {ops : List Op}

/-- No step panics. -/
theorem Ordered.step_ok (h : Ordered codec c ops) (a : Action) : ∃ o, c.step codec a = .ok o := by
  cases a with
  | append op =>
    simp only [Config.step]
    cases c.holder with
    | some p => exact ⟨_,rfl⟩
    | none =>
      rcases c.writer.writeHeader codec c.file none with ⟨w,f,err⟩
      cases err with
      | some err => exact ⟨_,rfl⟩
      | none =>
        simp only
        rcases w.appendEntry f op.entry none with ⟨w',f',err⟩
        cases err <;> exact ⟨_,rfl⟩
  | update =>
    cases hh : c.holder with
    | none => exact ⟨none,by simp only [Config.step,hh]⟩
    | some p =>
      obtain ⟨c',hc',-⟩ := h.step_update hh
      exact ⟨_,hc'⟩
  | startRead i n off =>
    simp only [Config.step]
    cases c.reads i <;> exact ⟨_,rfl⟩
  | lookup i =>
    cases hh : c.holder with
    | some p => exact ⟨none,by simp only [Config.step,hh]⟩
    | none =>
      cases hr : c.reads i with
      | looking n off out =>
        have hv := h.reads i
        rw [hr] at hv
        obtain ⟨x,hx,rfl⟩ := hv
        obtain ⟨phase,hp,-⟩ := h.step_lookup hx hh hr
        exact ⟨_,hp⟩
      | idle => exact ⟨none,by simp only [Config.step,hh,hr]⟩
      | fetching n off out logOff r => exact ⟨none,by simp only [Config.step,hh,hr]⟩
      | finished out err => exact ⟨none,by simp only [Config.step,hh,hr]⟩
  | fetch i =>
    simp only [Config.step]
    cases c.reads i <;> exact ⟨_,rfl⟩

/-- What a step can do: it writes to the log or the index, or it moves one read on. -/
theorem Ordered.step_cases (h : Ordered codec c ops) (hs : Config.Step codec c c') :
    (∃ ops' more, Ordered codec c' ops' ∧ c'.reads = c.reads ∧
      c'.file.bytes = c.file.bytes++more) ∨
    ∃ i phase, c' = c.setRead i phase ∧ phase.Valid ∧
      ((c.reads i = .idle) ∨
      (∃ n x out, x < 2^64 ∧ c.reads i = .looking n (i64 (x : ℕ)) out ∧
        Looked c.file.bytes c.writer.index n x out phase) ∨
      ∃ n off out logOff r, c.reads i = .fetching n off out logOff r ∧
        phase = readFetch c.file.bytes n off out logOff r) := by
  obtain ⟨a,ha⟩ := hs
  cases a with
  | append op =>
    obtain ⟨ho,-,hr,more,hmore⟩ := h.step_append ha
    exact .inl ⟨ops,more,ho,hr,hmore⟩
  | update =>
    cases hh : c.holder with
    | none =>
      simp only [Config.step,hh] at ha
      cases ha
    | some p =>
      obtain ⟨c'',hc,ho,-,hr,hf⟩ := h.step_update hh
      rw [hc] at ha
      simp only [Except.ok.injEq,Option.some.injEq] at ha
      subst ha
      exact .inl ⟨_,[],ho,hr,by rw [hf,List.append_nil]⟩
  | startRead i n off =>
    right
    simp only [Config.step] at ha
    cases hr : c.reads i with
    | idle =>
      rw [hr] at ha
      simp only [Except.ok.injEq] at ha
      split_ifs at ha with hoff
      refine ⟨i,.looking n off [],(Option.some.inj ha).symm,⟨toU64 off,toU64_lt off,?_⟩,.inl hr⟩
      unfold i64 toU64
      omega
    | looking n off out =>
      rw [hr] at ha
      cases ha
    | fetching n off out logOff r =>
      rw [hr] at ha
      cases ha
    | finished out err =>
      rw [hr] at ha
      cases ha
  | lookup i =>
    right
    cases hh : c.holder with
    | some p =>
      simp only [Config.step,hh] at ha
      cases ha
    | none =>
      cases hr : c.reads i with
      | looking n off out =>
        have hv := h.reads i
        rw [hr] at hv
        obtain ⟨x,hx,rfl⟩ := hv
        obtain ⟨phase,hp,hl⟩ := h.step_lookup hx hh hr
        rw [hp] at ha
        simp only [Except.ok.injEq,Option.some.injEq] at ha
        exact ⟨i,phase,ha.symm,hl.valid,.inr (.inl ⟨n,x,out,hx,hr,hl⟩)⟩
      | idle =>
        simp only [Config.step,hh,hr] at ha
        cases ha
      | fetching n off out logOff r =>
        simp only [Config.step,hh,hr] at ha
        cases ha
      | finished out err =>
        simp only [Config.step,hh,hr] at ha
        cases ha
  | fetch i =>
    right
    simp only [Config.step] at ha
    cases hr : c.reads i with
    | fetching n off out logOff r =>
      rw [hr] at ha
      simp only [Except.ok.injEq,Option.some.injEq] at ha
      exact ⟨i,_,ha.symm,valid_readFetch,.inr (.inr ⟨n,off,out,logOff,r,hr,rfl⟩)⟩
    | idle =>
      rw [hr] at ha
      cases ha
    | looking n off out =>
      rw [hr] at ha
      cases ha
    | finished out err =>
      rw [hr] at ha
      cases ha

theorem Ordered.step (h : Ordered codec c ops) (hs : Config.Step codec c c') :
    ∃ ops', Ordered codec c' ops' := by
  rcases h.step_cases hs with ⟨ops',-,ho,-⟩ | ⟨i,phase,rfl,hv,-⟩
  · exact ⟨ops',ho⟩
  · exact ⟨ops,h.setRead hv⟩

/-- In every state that is reached the index has the order of the file. -/
theorem Ordered.of_run (codec : Codec) (rf : Option ℕ)
    (h : ReflTransGen (Config.Step codec) (Config.new rf) c) : ∃ ops, Ordered codec c ops :=
  invariant (P := fun c => ∃ ops, Ordered codec c ops) (fun _ _ ⟨_,ho⟩ hs => ho.step hs)
    ⟨[],Ordered.new codec rf⟩ h

/-- Every byte is the one that its position had in one of the states `ms`. -/
def Current (ms : List Config) (x : ℕ) (out : List UInt8) : Prop :=
  ∀ p < out.length, ∃ m ∈ ms,
    out[p]? = some ((content m.file.bytes m.writer.index (x+p)).getD 0)

/-- What a read from `x` on has got after the states `ms`. -/
def ReadPhase.Got (ms : List Config) (x : ℕ) (file : List UInt8) : ReadPhase → Prop
  | idle => False
  | looking _ off out => off = i64 ((x+out.length : ℕ) : ℤ) ∧ x+out.length < 2^64 ∧
      Current ms x out
  | fetching _ off out logOff r => off = i64 ((x+out.length : ℕ) : ℤ) ∧ x+out.length+r < 2^64 ∧
      Current ms x out ∧ ∃ m ∈ ms, readAt file logOff r = ((List.range' (x+out.length) r).map
        fun y => (content m.file.bytes m.writer.index y).getD 0,none)
  | finished out _ => Current ms x out

theorem Current.mono {ms : List Config} {x : ℕ} {out : List UInt8} (h : Current ms x out)
    (c : Config) : Current (ms++[c]) x out := by
  intro p hp
  obtain ⟨m,hm,he⟩ := h p hp
  exact ⟨m,by simp [hm],he⟩

/-- Bytes that all come from one state. -/
theorem Current.append {ms : List Config} {x r : ℕ} {out : List UInt8} (h : Current ms x out)
    {m : Config} (hm : m ∈ ms) : Current ms x (out++(List.range' (x+out.length) r).map
      fun y => (content m.file.bytes m.writer.index y).getD 0) := by
  intro p hp
  by_cases hlt : p < out.length
  · obtain ⟨m',hm',he⟩ := h p hlt
    exact ⟨m',hm',by rw [List.getElem?_append_left hlt,he]⟩
  · simp only [List.length_append,List.length_map,List.length_range'] at hp
    refine ⟨m,hm,?_⟩
    rw [List.getElem?_append_right (by omega),List.getElem?_map,
      List.getElem?_range' (by omega),Option.map_some,
      show x+out.length+1*(p-out.length) = x+p by omega]

theorem ReadPhase.Got.mono {ms : List Config} {x : ℕ} {file : List UInt8} {phase : ReadPhase}
    (h : phase.Got ms x file) (c : Config) (more : List UInt8) :
    phase.Got (ms++[c]) x (file++more) := by
  cases phase with
  | idle => exact h
  | looking n off out => exact ⟨h.1,h.2.1,h.2.2.mono c⟩
  | finished out err => exact Current.mono h c
  | fetching n off out logOff r =>
    obtain ⟨ho,hx,hc,m,hm,hread⟩ := h
    exact ⟨ho,hx,hc.mono c,m,by simp [hm],readAt_append hread more⟩

/-- A step keeps what a read has got, and a step of the read adds to it. -/
theorem ReadPhase.Got.step {ms : List Config} {x i : ℕ} (h : Ordered codec c ops) (hc : c ∈ ms)
    (hg : (c.reads i).Got ms x c.file.bytes) (hs : Config.Step codec c c') :
    (c'.reads i).Got (ms++[c']) x c'.file.bytes := by
  rcases h.step_cases hs with ⟨-,more,-,hr,hmore⟩ | ⟨j,phase,rfl,-,hj⟩
  · rw [hr,hmore]
    exact hg.mono c' more
  · by_cases hij : i = j
    · subst hij
      have hreads : (c.setRead i phase).reads i = phase := by simp [Config.setRead]
      have hfile : (c.setRead i phase).file = c.file := rfl
      rw [hreads,hfile]
      refine List.append_nil c.file.bytes ▸ ReadPhase.Got.mono ?_ _ []
      rcases hj with hidle | ⟨n,x',out,hx',hr,hl⟩ | ⟨n,off,out,logOff,r,hr,rfl⟩
      · rw [hidle] at hg
        exact hg.elim
      · rw [hr] at hg
        obtain ⟨ho,hx,hcur⟩ := hg
        have hxx : x' = x+out.length := by
          have := congrArg toU64 ho
          rwa [toU64_i64_natCast hx',toU64_i64_natCast hx] at this
        subst hxx
        cases hl with
        | finished err => exact hcur
        | looking r hr => exact ⟨by simp [add_assoc],by simp; omega,hcur.append hc⟩
        | fetching logOff r hr hread => exact ⟨rfl,hr,hcur,c,hc,hread⟩
      · rw [hr] at hg
        obtain ⟨rfl,hx,hcur,m,hm,hread⟩ := hg
        rw [readFetch,hread]
        refine ⟨?_,by simp; omega,hcur.append hm⟩
        rw [i64_add_i64]
        congr 1
        simp
        omega
    · have hreads : (c.setRead j phase).reads i = c.reads i := by simp [Config.setRead,hij]
      rw [hreads]
      exact List.append_nil c.file.bytes ▸ hg.mono _ []

/-- A read that starts at the beginning of a trace. -/
theorem ReadPhase.Got.of_trace {c₁ : Config} {ms : List Config} {i n : ℕ} {off : ℤ}
    (h₁ : ∃ ops, Ordered codec c₁ ops) (ht : Trace (Config.Step codec) c₁ ms c)
    (hi : c₁.reads i = .looking n off []) : (c.reads i).Got ms (toU64 off) c.file.bytes := by
  obtain ⟨ops₁,ho₁⟩ := h₁
  induction ht with
  | refl =>
    have hv := ho₁.reads i
    rw [hi] at hv ⊢
    obtain ⟨x,hx,rfl⟩ := hv
    refine ⟨?_,?_,fun p hp => by simp at hp⟩
    · rw [toU64_i64_natCast hx]
      rfl
    · rw [toU64_i64_natCast hx]
      exact hx
  | snoc ht hs ih =>
    obtain ⟨ops',ho'⟩ := invariant (P := fun c => ∃ ops, Ordered codec c ops)
      (fun _ _ ⟨_,ho⟩ hs => ho.step hs) ⟨ops₁,ho₁⟩ ht.run
    exact ih.step ho' ht.last_mem hs

end Steps

/-- Any number of concurrent calls. The file holds the entries of the indexed calls in the
order in which they were indexed, and behind them only that of the call that holds the index
lock; the index is the replay of the former, which for a log without trims is what the scan
builds, while the scan of a log with a trim panics; no step panics; and every byte that a read
returns was the byte of its position in a state between the start and the end of the read. -/
theorem index_follows_log {codec : Codec} {rf : Option ℕ} {c₁ c : Config} {ms : List Config}
    (h₁ : ReflTransGen (Config.Step codec) (Config.new rf) c₁)
    (ht : Trace (Config.Step codec) c₁ ms c) :
    (∃ ops, (c.file.bytes = opsLog codec (ops++c.pending) ∨
        (c.file.bytes = [] ∧ ops++c.pending = [])) ∧
      IndexOfOps codec ops c.writer.index ∧ c.writer.endOff = opsEnd ops ∧
      content c.file.bytes c.writer.index = stored ops ∧
      (∀ ws : List Write, ops = ws.map .write → newReader codec (opsLog codec ops) 0 =
        .ok (⟨opsLog codec ops,c.writer.endOff,c.writer.index⟩,none)) ∧
      ∀ t size, .trim t ∈ ops++c.pending → FooterNotTaken codec c.file.bytes size →
        newReader codec c.file.bytes size = .error (.panic "Unsupported")) ∧
    (∀ a, ∃ o, c.step codec a = .ok o) ∧
    ∀ i n off out err, c₁.reads i = .looking n off [] → c.reads i = .finished out err →
      ∀ p < out.length, ∃ m ∈ ms,
        out[p]? = some ((content m.file.bytes m.writer.index (toU64 off+p)).getD 0) := by
  obtain ⟨ops,ho⟩ := Ordered.of_run codec rf (h₁.trans ht.run)
  refine ⟨⟨ops,?_,ho.index,ho.endOff,ho.content,?_,?_⟩,ho.step_ok,?_⟩
  · rcases ho.log with ⟨-,hfile,rfl,hh⟩ | ⟨-,hfile,-⟩
    · exact .inr ⟨hfile,by rw [Config.pending,hh]; rfl⟩
    · exact .inl hfile
  · rintro ws rfl
    have hlen : (logBytes codec ws).length < 2^63 := by
      rcases ho.log with ⟨-,-,hops,-⟩ | ⟨-,hfile,-⟩
      · have hws : ws = [] := List.map_eq_nil_iff.mp hops
        have := codec.header_length
        rw [hws,logBytes,entriesBytes_nil,List.append_nil,headerBytes_length]
        omega
      · have hsmall := c.file.small
        rw [hfile,opsLog_append,List.length_append] at hsmall
        exact (Nat.le_add_right _ _).trans_lt hsmall
    have := newReader_scan ends_nil hlen ho.index (show FooterNotTaken codec _ 0 from .inl le_rfl)
    rw [List.append_nil] at this
    rw [ho.endOff]
    exact this
  · intro t size ht hfooter
    rcases ho.log with ⟨-,-,rfl,hh⟩ | ⟨-,hfile,-⟩
    · rw [Config.pending,hh] at ht
      cases ht
    · have hsmall := c.file.small
      rw [hfile] at hsmall hfooter ⊢
      exact newReader_panics_of_trim ht hsmall hfooter
  · intro i n off out err hi hf
    have := ReadPhase.Got.of_trace (Ordered.of_run codec rf h₁) ht hi
    rw [hf] at this
    exact this

/-- A read that starts before a write and sees it. -/
theorem index_follows_log_of_late_read : ∃ c₁ ms c,
    ReflTransGen (Config.Step wireCodec) (Config.new none) c₁ ∧
    Trace (Config.Step wireCodec) c₁ ms c ∧ c₁.reads 0 = .looking 1 0 [] ∧
    c.reads 0 = .finished [7] none ∧ ∃ m ∈ ms,
      ([7] : List UInt8)[0]? = some ((content m.file.bytes m.writer.index (toU64 0+0)).getD 0) := by
  have hstart : (Config.new none).step wireCodec (.startRead 0 1 0) =
      .ok (some ((Config.new none).setRead 0 (.looking 1 0 []))) := by
    simp [Config.step,Config.new]
  have hcalc : (after (Config.step wireCodec) ((Config.new none).setRead 0 (.looking 1 0 []))
      [.append (.write (.byte 0 7)),.update,.lookup 0,.fetch 0,.lookup 0]).map
        (fun o => o.map fun c => c.reads 0) = .ok (some (.finished [7] none)) := by
    decide +kernel
  obtain ⟨o,hrun,ho⟩ := exists_of_map hcalc
  obtain ⟨c,rfl,hc⟩ := Option.map_eq_some_iff.mp ho
  obtain ⟨ms,hms⟩ : ∃ ms, Trace (Config.Step wireCodec) _ ms c :=
    trace_of_after (fun _ a _ hs => ⟨a,hs⟩) hrun
  have hreach : ReflTransGen (Config.Step wireCodec) (Config.new none)
      ((Config.new none).setRead 0 (.looking 1 0 [])) := .single ⟨_,hstart⟩
  have hi : ((Config.new none).setRead 0 (.looking 1 0 [])).reads 0 = .looking 1 0 [] := by
    simp [Config.setRead]
  exact ⟨_,ms,c,hreach,hms,hi,hc,
    (index_follows_log hreach hms).2.2 0 1 0 [7] none hi hc 0 (by simp)⟩

/-- A log with a trim cannot be replayed by the scan, which panics. -/
theorem newReader_panics_on_trim : ∃ c, ReflTransGen (Config.Step wireCodec) (Config.new none) c ∧
    c.pending = [] ∧ c.file.bytes = opsLog wireCodec [.trim ⟨0,1,by decide,by decide,by decide⟩] ∧
    newReader wireCodec c.file.bytes 0 = .error (.panic "Unsupported") := by
  have hcalc : (after (Config.step wireCodec) (Config.new none)
      [.append (.trim ⟨0,1,by decide,by decide,by decide⟩),.update]).map
        (fun o => o.map fun c => (c.pending,c.file.bytes)) = .ok (some ([],
          opsLog wireCodec [.trim ⟨0,1,by decide,by decide,by decide⟩])) := by
    decide +kernel
  obtain ⟨o,hrun,ho⟩ := exists_of_map hcalc
  obtain ⟨c,rfl,hc⟩ := Option.map_eq_some_iff.mp ho
  simp only [Prod.mk.injEq] at hc
  obtain ⟨ms,hms⟩ : ∃ ms, Trace (Config.Step wireCodec) _ ms c :=
    trace_of_after (fun _ a _ hs => ⟨a,hs⟩) hrun
  refine ⟨c,hms.run,hc.1,hc.2,?_⟩
  have hsmall := c.file.small
  rw [hc.2] at hsmall ⊢
  exact newReader_panics_of_trim List.mem_cons_self hsmall (.inl le_rfl)

end Concurrent
end Wal
end Logblock
