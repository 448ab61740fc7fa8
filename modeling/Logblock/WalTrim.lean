import Logblock.WalReplay

/-! Writes and trims of one log, read back through the writer. A trim stores zeros; its record
covers as much of the device as the call, but has no bytes in the log. -/
namespace Logblock
namespace Wal

open Bytes ByteStream Loop Runs

namespace Writer

/-- What a successful append and its record change. -/
theorem logAndIndex_ok {w w' : Writer} {f f' : File} {e : LogEntry} {off length : ℤ}
    {lr : LogRecord} {fault : Option ℕ} (he : e.readOff = 0)
    (h : w.logAndIndex f e off length lr fault = .ok (w',f',none)) :
    f'.bytes = f.bytes++e.bytes ∧ ∃ index,
      w.index.add (toU64 off) (toU64 length) lr = .ok index ∧
      w' = {w with offset := i64 (w.offset+e.len),index := index,
                   endOff := moveEnd w.endOff off length} := by
  rw [logAndIndex] at h
  cases hopen : w.isOpen with
  | false =>
    rw [hopen,if_neg (by simp)] at h
    cases h
  | true =>
    rw [hopen,if_pos rfl,writeLogEntry_eq w f he,File.write,LogEntry.length_bytes] at h
    cases hf : f.fails e.len fault with
    | true =>
      rw [hf] at h
      cases h
    | false =>
      rw [hf] at h
      cases hadd : w.index.add (toU64 off) (toU64 length) lr with
      | error e' =>
        simp only [hadd] at h
        cases h
      | ok index =>
        simp only [hadd] at h
        cases h
        refine ⟨?_,index,rfl,rfl⟩
        rw [File.grow_bytes,LogEntry.length_bytes,File.not_fails hf,← LogEntry.length_bytes,
          List.take_length]

/-- `CloseWriter` only appends to the file. -/
theorem closeWriter_eq {codec : Codec} {w w' : Writer} {f f' : File} {fault : Option ℕ}
    {err : Option Error} (hclose : w.closeWriter codec f fault = (w',f',err)) :
    w'.index = w.index ∧ w'.endOff = w.endOff ∧ ∃ tail, f'.bytes = f.bytes++tail := by
  rw [Writer.closeWriter] at hclose
  split_ifs at hclose
  · cases hclose
    exact ⟨rfl,rfl,[],by simp⟩
  · cases hclose
    exact ⟨rfl,rfl,_,File.grow_bytes _ _ _⟩
  · cases hclose
    exact ⟨rfl,rfl,[],by simp⟩

end Writer

/-- A writer that has logged `ops`. The header is there from the first of them on. -/
structure Kept (codec : Codec) (w : Writer) (f : File) (ops : List Op) : Prop where
  isOpen : w.isOpen = true
  file : (ops = [] ∧ w.headerOnce = none ∧ f.bytes = [] ∧ w.offset = 0) ∨
    (w.headerOnce = some none ∧ f.bytes = opsLog codec ops ∧ w.offset = f.bytes.length)
  endOff : w.endOff = opsEnd ops
  index : IndexOfOps codec ops w.index

namespace Kept

variable {codec : Codec} {w w' : Writer} {f f' : File} {ops : List Op}

theorem new (codec : Codec) (rf : Option ℕ) : Kept codec (Writer.new rf) .empty [] :=
  ⟨rfl,.inl ⟨rfl,rfl,rfl,rfl⟩,rfl,rfl⟩

/-- The header is written, or was written before. -/
theorem writeHeader_ok (h : Kept codec w f ops) {fault : Option ℕ}
    (hcall : w.writeHeader codec f fault = (w',f',none)) :
    Kept codec w' f' ops ∧ w'.headerOnce = some none ∧ f'.bytes = opsLog codec ops ∧
      w'.offset = f'.bytes.length := by
  obtain ⟨rfl,hnone,hempty,hzero⟩ | ⟨hsome,hfile,hoff⟩ := h.file
  · simp only [Writer.writeHeader,hnone,h.isOpen,if_true,File.writeMany_eq,flatten_header,File.write]
      at hcall
    cases hf : f.fails (headerBytes codec).length fault with
    | true =>
      rw [hf] at hcall
      cases hcall
    | false =>
      rw [hf] at hcall
      have hall := File.not_fails hf
      have hbytes : (f.grow (headerBytes codec) fault).bytes = opsLog codec [] := by
        rw [File.grow_bytes,hall,List.take_length,hempty]
        simp [opsLog,opsBytes]
      cases hcall
      have hoff : ((f.persisted (headerBytes codec).length fault : ℕ) : ℤ) =
          (f.grow (headerBytes codec) fault).bytes.length := by
        rw [hall,hbytes]
        simp [opsLog,opsBytes]
      exact ⟨⟨rfl,.inr ⟨rfl,hbytes,hoff⟩,h.endOff,h.index⟩,rfl,hbytes,hoff⟩
  · simp only [Writer.writeHeader,hsome] at hcall
    cases hcall
    exact ⟨h,hsome,hfile,hoff⟩

/-- A call that succeeds logs one more operation. -/
theorem logAndIndex_ok (h : Kept codec w f ops) (hhead : w.headerOnce = some none)
    (hfile : f.bytes = opsLog codec ops) (hoff : w.offset = f.bytes.length) (op : Op)
    {fault : Option ℕ} {lr : LogRecord}
    (hlr : (opsLog codec ops).length+op.entry.len < 2^63 →
      lr = op.logRecord ((opsLog codec ops).length+16))
    (hcall : w.logAndIndex f op.entry op.off op.length lr fault = .ok (w',f',none)) :
    Kept codec w' f' (ops++[op]) := by
  obtain ⟨hbytes,index,hadd,rfl⟩ := Writer.logAndIndex_ok op.readOff_entry hcall
  have hsmall := f'.small
  rw [hbytes,hfile,List.length_append,LogEntry.length_bytes] at hsmall
  have hend := op.end_lt
  have hmove : i64 (w.offset+op.entry.len) = ((opsLog codec (ops++[op])).length : ℕ) := by
    rw [hoff,hfile,opsLog_snoc,List.length_append,LogEntry.length_bytes,Nat.cast_add]
    exact i64_of_range (by omega) (by omega)
  obtain ⟨index',hadd',hindex⟩ := h.index.snoc op
  rw [toU64_natCast (by omega),toU64_natCast (by omega),hlr hsmall,hadd'] at hadd
  cases hadd
  have hfile' : f'.bytes = opsLog codec (ops++[op]) := by rw [hbytes,hfile,opsLog_snoc]
  refine ⟨h.isOpen,.inr ⟨hhead,hfile',?_⟩,?_,hindex⟩
  · show i64 (w.offset+op.entry.len) = _
    rw [hmove,hfile']
  · show Writer.moveEnd w.endOff op.off op.length = _
    rw [h.endOff,opsEnd_snoc]

theorem writeAt_ok (h : Kept codec w f ops) {wr : Write} {faults : Faults}
    (hcall : w.writeAt codec f wr.data wr.off faults = .ok (w',f',wr.data.length,none)) :
    Kept codec w' f' (ops++[.write wr]) := by
  have hle := wr.data_le
  have hpos := wr.data_pos
  rw [Writer.writeAt,if_neg (by omega),if_neg (by omega)] at hcall
  rcases hhead : w.writeHeader codec f faults.header with ⟨w₁,f₁,err⟩
  rw [hhead] at hcall
  cases err with
  | some e =>
    simp only [Except.ok.injEq,Prod.mk.injEq] at hcall
    cases hcall.2.2.2
  | none =>
    obtain ⟨h₁,hh,hfile,hoff⟩ := h.writeHeader_ok hhead
    have hlen : (makeLogEntry .data wr.off wr.data.length wr.data).header.length = 16 :=
      dataEntry_header_length _ _
    simp only [hlen] at hcall
    cases hrun : w₁.logAndIndex f₁ (makeLogEntry .data wr.off wr.data.length wr.data) wr.off
        wr.data.length ⟨i64 (w₁.offset+(16 : ℕ)),wr.off,wr.data.length,false⟩ faults.entry with
    | error e =>
      rw [hrun] at hcall
      cases hcall
    | ok out =>
      obtain ⟨w₂,f₂,err⟩ := out
      rw [hrun] at hcall
      simp only [bind,Except.bind,Except.ok.injEq,Prod.mk.injEq] at hcall
      obtain ⟨rfl,rfl,-,rfl⟩ := hcall
      refine h₁.logAndIndex_ok hh hfile hoff (.write wr) (fun hsmall => ?_) hrun
      have hwlen := wr.entry_len
      have hsmall' : (opsLog codec ops).length+wr.entry.len < 2^63 := hsmall
      rw [hoff,hfile,i64_of_range (by omega) (by omega)]
      rfl

theorem trim_ok (h : Kept codec w f ops) {t : Trim} {faults : Faults}
    (hcall : w.trim codec f t.off t.length faults = .ok (w',f',none)) :
    Kept codec w' f' (ops++[.trim t]) := by
  have hpos := t.length_pos
  rw [Writer.trim,if_neg (by omega)] at hcall
  rcases hhead : w.writeHeader codec f faults.header with ⟨w₁,f₁,err⟩
  rw [hhead] at hcall
  cases err with
  | some e => cases hcall
  | none =>
    obtain ⟨h₁,hh,hfile,hoff⟩ := h.writeHeader_ok hhead
    exact h₁.logAndIndex_ok hh hfile hoff (.trim t) (fun _ => rfl) hcall

/-- The index can be read, whatever follows the entries in the file. -/
theorem readable (h : Kept codec w f ops) (tail : List UInt8)
    (hlen : (f.bytes++tail).length < 2^63) : Readable (f.bytes++tail) w.index ∧
      Wal.content (f.bytes++tail) w.index = stored ops := by
  obtain ⟨rfl,_,hempty,_⟩ | ⟨_,hfile,_⟩ := h.file
  · have hindex : w.index = .empty := (Except.ok.inj h.index).symm
    rw [hindex]
    exact ⟨⟨ExtentRangeMap.empty_wf,by simp [ExtentRangeMap.empty],by simp,hlen⟩,rfl⟩
  · rw [hfile] at hlen ⊢
    exact ⟨h.index.readable hlen,h.index.content⟩

end Kept

/-- A sequence of successful calls of `WriteAt` and `Trim` on a new log. -/
inductive Performed (codec : Codec) (rf : Option ℕ) : List Op → Writer → File → Prop
  | new : Performed codec rf [] (Writer.new rf) .empty
  | write {ops : List Op} {w w' : Writer} {f f' : File} (wr : Write) (faults : Faults) :
      Performed codec rf ops w f →
      w.writeAt codec f wr.data wr.off faults = .ok (w',f',wr.data.length,none) →
      Performed codec rf (ops++[.write wr]) w' f'
  | trim {ops : List Op} {w w' : Writer} {f f' : File} (t : Trim) (faults : Faults) :
      Performed codec rf ops w f →
      w.trim codec f t.off t.length faults = .ok (w',f',none) →
      Performed codec rf (ops++[.trim t]) w' f'

theorem Performed.kept {codec : Codec} {rf : Option ℕ} {ops : List Op} {w : Writer} {f : File}
    (h : Performed codec rf ops w f) : Kept codec w f ops := by
  induction h with
  | new => exact Kept.new codec rf
  | write wr faults _ hcall ih => exact ih.writeAt_ok hcall
  | trim t faults _ hcall ih => exact ih.trim_ok hcall

/-- The writer and the log as the calls left them, or after `CloseWriter`, whatever it returned. -/
def LeftBy (codec : Codec) (w : Writer) (f : File) (w' : Writer) (f' : File) : Prop :=
  (w' = w ∧ f' = f) ∨ ∃ fault err, w.closeWriter codec f fault = (w',f',err)

/-- A log that reads like one that was kept: its entries may be followed by other bytes. -/
def ReadsLike (codec : Codec) (w' : Writer) (f' : File) (ops : List Op) : Prop :=
  ∃ w f tail, Kept codec w f ops ∧ w'.index = w.index ∧ w'.endOff = w.endOff ∧
    f'.bytes = f.bytes++tail

/-- The log reads back as the array of the bytes stored by the calls, which ends at `Size`. -/
structure ReadsBack (w : Writer) (file : List UInt8) (ops : List Op) : Prop where
  readAt : ∀ n off : ℕ, off < 2^63 →
    w.readAtFrom file n off = .ok (readResult (stored ops) w.size.toNat n off)
  nextData : ∀ off : ℕ, off < 2^63 → ∃ o, LeastFrom (fun x => stored ops x ≠ none) off o ∧
    w.nextData off = (match o with | none => (0,some .eof) | some y => ((y : ℤ),none))
  nextHole : ∀ off : ℕ, off < 2^63 → ∃ y, LeastFrom (fun x => stored ops x = none) off (some y) ∧
    w.nextHole off = ((y : ℤ),none)

section ReadBack

variable {ops : List Op}

theorem stored_ne_none {x : ℕ} :
    stored ops x ≠ none ↔ ∃ op ∈ ops, op.off ≤ x ∧ x < op.off+op.length := by
  induction ops using List.reverseRecOn with
  | nil => simp [stored]
  | append_singleton ops op ih =>
    rw [stored_snoc,Op.store_ne_none,ih]
    simp only [List.mem_append,List.mem_singleton,or_and_right,exists_or,exists_eq_left]
    exact Or.comm

theorem opsEnd_lt (ops : List Op) : opsEnd ops < 2^63 ∧ 0 ≤ opsEnd ops := by
  induction ops using List.reverseRecOn with
  | nil => simp [opsEnd]
  | append_singleton ops op ih =>
    rw [opsEnd_snoc]
    unfold Writer.moveEnd
    have := i64_lt (op.off+op.length)
    split_ifs <;> omega

/-- Without overflow the end is that of the furthest call. -/
theorem opsEnd_spec (h : ∀ op ∈ ops, op.off+op.length < 2^63) :
    (∀ x, (opsEnd ops).toNat ≤ x → stored ops x = none) ∧
      (0 < (opsEnd ops).toNat → stored ops ((opsEnd ops).toNat-1) ≠ none) := by
  induction ops using List.reverseRecOn with
  | nil => simp [opsEnd,stored]
  | append_singleton ops op ih =>
    obtain ⟨ih₁,ih₂⟩ := ih fun op' hop => h op' (by simp [hop])
    have hop := h op (by simp)
    have hpos := op.length_pos
    have hend := opsEnd_lt ops
    have hi : i64 ((op.off : ℤ)+op.length) = (op.off+op.length : ℕ) := by
      rw [i64_of_range (by omega) (by omega)]
      rfl
    have hmove : (opsEnd (ops++[op])).toNat = max (opsEnd ops).toNat (op.off+op.length) := by
      rw [opsEnd_snoc]
      unfold Writer.moveEnd
      rw [hi]
      split_ifs <;> omega
    rw [hmove,stored_snoc]
    refine ⟨fun x hx => ?_,fun _ => Op.store_ne_none.mpr ?_⟩
    · rw [Op.store,if_neg (by omega),ih₁ x (by omega)]
    · by_cases hle : (opsEnd ops).toNat ≤ op.off+op.length
      · exact .inl (by omega)
      · right
        rw [max_eq_left (by omega)]
        exact ih₂ (by omega)

variable {codec : Codec} {w w' : Writer} {f f' : File}

/-- After `CloseWriter` the same bytes are read. -/
theorem Kept.readsLike (h : Kept codec w f ops) (hleft : LeftBy codec w f w' f') :
    ReadsLike codec w' f' ops := by
  obtain ⟨rfl,rfl⟩ | ⟨fault,err,hclose⟩ := hleft
  · exact ⟨_,_,[],h,rfl,rfl,(List.append_nil _).symm⟩
  · obtain ⟨hindex,hend,tail,hfile⟩ := Writer.closeWriter_eq hclose
    exact ⟨_,_,tail,h,hindex,hend,hfile⟩

namespace ReadsLike

theorem readable (h : ReadsLike codec w' f' ops) : Readable f'.bytes w'.index ∧
    Wal.content f'.bytes w'.index = stored ops ∧ w'.endOff = opsEnd ops := by
  obtain ⟨w,f,tail,hkept,hindex,hend,hfile⟩ := h
  have hsmall := f'.small
  rw [hfile] at hsmall ⊢
  rw [hindex,hend]
  have := hkept.readable tail hsmall
  exact ⟨this.1,this.2,hkept.endOff⟩

theorem readAtFrom_eq (h : ReadsLike codec w' f' ops) (n : ℕ) {off : ℕ} (hoff : off < 2^63) :
    w'.readAtFrom f'.bytes n off = .ok (readResult (stored ops) w'.index.endKey n off) := by
  obtain ⟨hr,hc,_⟩ := h.readable
  rw [Writer.readAtFrom,hr.readIndexed_eq n off (by omega) (by omega),hc,toU64_natCast (by omega)]

theorem get_eq_none (h : ReadsLike codec w' f' ops) (x : ℕ) :
    w'.index.get x = none ↔ stored ops x = none := by
  obtain ⟨_,hc,_⟩ := h.readable
  rw [← hc,content_eq,Option.map_eq_none_iff]

/-- A byte at `2^63-1` is never before `Size`. -/
theorem ends_lt (h : ReadsLike codec w' f' ops) (hback : ReadsBack w' f'.bytes ops) :
    ∀ op ∈ ops, op.off+op.length < 2^63 := by
  intro op hop
  by_contra hover
  obtain ⟨hr,_,hsize⟩ := h.readable
  obtain ⟨hlt,_⟩ := opsEnd_lt ops
  have hoff := op.off_lt
  have hin : stored ops (2^63-1) ≠ none := stored_ne_none.mpr ⟨op,hop,by omega,by omega⟩
  have hkey := hr.lt_endKey fun hn => hin ((h.get_eq_none _).mp hn)
  have hone := hback.readAt 1 (2^63-1) (by norm_num)
  rw [h.readAtFrom_eq 1 (by norm_num),Writer.size,hsize,Except.ok.injEq,readResult,readResult,
    Prod.mk.injEq] at hone
  have herr := hone.2
  rw [if_neg (by omega),if_pos (by omega)] at herr
  cases herr

theorem readsBack (h : ReadsLike codec w' f' ops) (hends : ∀ op ∈ ops, op.off+op.length < 2^63) :
    ReadsBack w' f'.bytes ops := by
  obtain ⟨hr,_,hsize⟩ := h.readable
  have hnone := h.get_eq_none
  have hend : w'.index.endKey = (opsEnd ops).toNat := by
    obtain ⟨h₁,h₂⟩ := opsEnd_spec hends
    obtain ⟨h₃,h₄⟩ := ExtentRangeMap.endKey_spec hr.wf
    exact end_unique h₃ h₄ (fun x hx => (hnone x).mpr (h₁ x hx))
      fun hpos hn => h₂ hpos ((hnone _).mp hn)
  refine ⟨fun n off hoff => ?_,fun off hoff => ?_,fun off hoff => ?_⟩
  · rw [h.readAtFrom_eq n hoff,hend,Writer.size,hsize]
  · have hspec := (ExtentRangeMap.nextKey_spec hr.wf off).congr fun z => not_congr (hnone z)
    refine ⟨w'.index.nextKey off,hspec,?_⟩
    rw [Writer.nextData,nextData,toU64_natCast (by omega)]
    cases hk : w'.index.nextKey off with
    | none => rfl
    | some y =>
      rw [hk] at hspec
      obtain ⟨op,hop,hin⟩ := stored_ne_none.mp hspec.2.1
      have := hends op hop
      simp only
      rw [i64_of_range (by omega) (by omega)]
  · have hspec := (ExtentRangeMap.nextEmpty_spec hr.wf off).congr hnone
    refine ⟨w'.index.nextEmpty off,hspec,?_⟩
    have hle : w'.index.nextEmpty off < 2^63 := by
      by_contra hbig
      have hne := hspec.2.2 (2^63-1) (by omega) (by omega)
      obtain ⟨op,hop,hin⟩ := stored_ne_none.mp hne
      have := hends op hop
      omega
    rw [Writer.nextHole,nextHole,toU64_natCast (by omega),i64_of_range (by omega) (by omega)]

end ReadsLike

/-- The log reads back as the calls stored it, exactly when no call ends beyond `int64`. -/
theorem readsBack_iff {rf : Option ℕ} (h : Performed codec rf ops w f)
    (hleft : LeftBy codec w f w' f') :
    ReadsBack w' f'.bytes ops ↔ ∀ op ∈ ops, op.off+op.length < 2^63 :=
  ⟨(h.kept.readsLike hleft).ends_lt,(h.kept.readsLike hleft).readsBack⟩

end ReadBack

section Exists

variable {codec : Codec} {w : Writer} {f : File} {ops : List Op}

theorem Kept.exists_writeHeader (h : Kept codec w f ops) :
    ∃ w' f', w.writeHeader codec f none = (w',f',none) := by
  obtain ⟨rfl,hnone,hempty,_⟩ | ⟨hsome,_⟩ := h.file
  · have hf : f.fails (headerBytes codec).length none = false := by
      have := codec.header_length
      refine File.fails_none ?_
      simp only [hempty,headerBytes,List.length_append,length_leBytes,List.length_nil,
        show headerMagic.length = 8 from rfl]
      omega
    simp only [Writer.writeHeader,hnone,h.isOpen,if_true,File.writeMany_eq,flatten_header,File.write,
      hf]
    exact ⟨_,_,rfl⟩
  · simp only [Writer.writeHeader,hsome]
    exact ⟨_,_,rfl⟩

theorem Kept.exists_logAndIndex (h : Kept codec w f ops) (hfile : f.bytes = opsLog codec ops)
    {op : Op} (hsmall : (opsLog codec (ops++[op])).length < 2^63) (lr : LogRecord) :
    ∃ w' f', w.logAndIndex f op.entry op.off op.length lr none = .ok (w',f',none) := by
  have hend := op.end_lt
  have hf : f.fails op.entry.len none = false := by
    refine File.fails_none ?_
    rw [opsLog_snoc,List.length_append,LogEntry.length_bytes] at hsmall
    rw [hfile]
    exact hsmall
  obtain ⟨m,hadd,-,-⟩ := ExtentRangeMap.add_spec h.index.spec.1 op.end_lt lr
  rw [Writer.logAndIndex,h.isOpen,if_pos rfl,Writer.writeLogEntry_eq w f op.readOff_entry,File.write,
    LogEntry.length_bytes,hf,toU64_natCast (by omega),toU64_natCast (by omega)]
  simp only [hadd]
  exact ⟨_,_,rfl⟩

/-- A device that never fails takes a write whose entry fits into the file. -/
theorem Kept.exists_writeAt (h : Kept codec w f ops) {wr : Write}
    (hsmall : (opsLog codec (ops++[.write wr])).length < 2^63) : ∃ w' f',
      w.writeAt codec f wr.data wr.off ⟨none,none⟩ = .ok (w',f',wr.data.length,none) := by
  obtain ⟨w₁,f₁,hhead⟩ := h.exists_writeHeader
  obtain ⟨h₁,_,hfile,_⟩ := h.writeHeader_ok hhead
  have hle := wr.data_le
  have hpos := wr.data_pos
  have hlen : (makeLogEntry .data wr.off wr.data.length wr.data).header.length = 16 :=
    dataEntry_header_length _ _
  obtain ⟨w₂,f₂,hlog⟩ := h₁.exists_logAndIndex hfile hsmall
    ⟨i64 (w₁.offset+(16 : ℕ)),wr.off,wr.data.length,false⟩
  refine ⟨w₂,f₂,?_⟩
  rw [Writer.writeAt,if_neg (by omega),if_neg (by omega),hhead]
  simp only [hlen]
  exact congrArg (fun r => r >>= fun r => .ok (r.1,r.2.1,
    if r.2.2 = none then wr.data.length else 0,r.2.2)) hlog

/-- A log whose file is full: an entry did not fit. -/
structure Stopped (codec : Codec) (w : Writer) (f : File) (ops : List Op) : Prop where
  isOpen : w.isOpen = true
  header : w.headerOnce = some none
  readsLike : ReadsLike codec w f ops
  full : f.bytes.length+1 = 2^63

/-- A log that is written to a device without faults. -/
def Active (codec : Codec) (w : Writer) (f : File) (ops : List Op) : Prop :=
  Kept codec w f ops ∨ Stopped codec w f ops

theorem Active.readsLike (h : Active codec w f ops) : ReadsLike codec w f ops := by
  rcases h with h | h
  · exact h.readsLike (.inl ⟨rfl,rfl⟩)
  · exact h.readsLike

/-- An entry that does not fit fills the file, and the writer is as before. -/
theorem logAndIndex_full (hopen : w.isOpen = true) {op : Op}
    (hbig : 2^63 ≤ f.bytes.length+op.entry.len) (lr : LogRecord) : ∃ f' err,
      w.logAndIndex f op.entry op.off op.length lr none = .ok (w,f',some err) ∧
      f'.bytes.length+1 = 2^63 ∧ ∃ tail, f'.bytes = f.bytes++tail := by
  have hsmall := f.small
  have hf : f.fails op.entry.len none = true := by
    simp only [File.fails,Option.any_none,Bool.false_or,Bool.and_eq_true,decide_eq_true_eq]
    omega
  refine ⟨f.grow op.entry.bytes none,.device,?_,?_,_,File.grow_bytes _ _ _⟩
  · rw [Writer.logAndIndex,hopen,if_pos rfl,Writer.writeLogEntry_eq w f op.readOff_entry,File.write,
      LogEntry.length_bytes,hf]
    rfl
  · rw [File.grow_bytes,List.length_append,List.length_take,LogEntry.length_bytes,File.persisted,
      Option.getD_none]
    omega

/-- A write to such a log succeeds, or it leaves what the log reads. -/
theorem Active.writeAt (h : Active codec w f ops) (wr : Write) : ∃ w' f' n err,
    w.writeAt codec f wr.data wr.off ⟨none,none⟩ = .ok (w',f',n,err) ∧
      (err = none → Active codec w' f' (ops++[.write wr])) ∧
      (err ≠ none → n = 0 ∧ Active codec w' f' ops) := by
  have hle := wr.data_le
  have hpos := wr.data_pos
  have hlen : (makeLogEntry .data wr.off wr.data.length wr.data).header.length = 16 :=
    dataEntry_header_length _ _
  have hstop : ∀ {w₁ : Writer} {f₁ : File}, w₁.isOpen = true → w₁.headerOnce = some none →
      ReadsLike codec w₁ f₁ ops → w.writeHeader codec f none = (w₁,f₁,none) →
      2^63 ≤ f₁.bytes.length+(Op.write wr).entry.len → ∃ w' f' n err,
        w.writeAt codec f wr.data wr.off ⟨none,none⟩ = .ok (w',f',n,err) ∧
          (err = none → Active codec w' f' (ops++[.write wr])) ∧
          (err ≠ none → n = 0 ∧ Active codec w' f' ops) := by
    intro w₁ f₁ hopen hhead hlike hcall hbig
    obtain ⟨f',err,hlog,hfull,tail,htail⟩ := logAndIndex_full hopen hbig
      ⟨i64 (w₁.offset+(16 : ℕ)),wr.off,wr.data.length,false⟩
    obtain ⟨w₀,f₀,tail₀,hkept,hindex,hend,hfile⟩ := hlike
    refine ⟨w₁,f',0,some err,?_,fun he => (by cases he),fun _ => ⟨rfl,.inr ⟨hopen,hhead,
      ⟨w₀,f₀,tail₀++tail,hkept,hindex,hend,by rw [htail,hfile,List.append_assoc]⟩,hfull⟩⟩⟩
    rw [Writer.writeAt,if_neg (by omega),if_neg (by omega),hcall]
    simp only [hlen]
    exact congrArg (fun r => r >>= fun r => .ok (r.1,r.2.1,
      if r.2.2 = none then wr.data.length else 0,r.2.2)) hlog
  rcases h with h | h
  · by_cases hsmall : (opsLog codec (ops++[.write wr])).length < 2^63
    · obtain ⟨w',f',hcall⟩ := h.exists_writeAt hsmall
      exact ⟨w',f',_,none,hcall,fun _ => .inl (h.writeAt_ok hcall),fun he => absurd rfl he⟩
    · obtain ⟨w₁,f₁,hcall⟩ := h.exists_writeHeader
      obtain ⟨h₁,hhead,hfile,_⟩ := h.writeHeader_ok hcall
      refine hstop h₁.isOpen hhead (h₁.readsLike (.inl ⟨rfl,rfl⟩)) hcall ?_
      rw [opsLog_snoc,List.length_append,LogEntry.length_bytes,← hfile] at hsmall
      omega
  · have hcall : w.writeHeader codec f none = (w,f,none) := by
      simp only [Writer.writeHeader,h.header]
    refine hstop h.isOpen h.header h.readsLike hcall ?_
    have hfull := h.full
    have hentry : (Op.write wr).entry.len = 16+wr.data.length := wr.entry_len
    omega

/-- A device that never fails takes every sequence of calls that fits into a file. -/
theorem exists_performed (codec : Codec) (rf : Option ℕ) (ops : List Op)
    (hsmall : (opsLog codec ops).length < 2^63) : ∃ w f, Performed codec rf ops w f := by
  induction ops using List.reverseRecOn with
  | nil => exact ⟨_,_,.new⟩
  | append_singleton ops op ih =>
    obtain ⟨w,f,hp⟩ := ih (by rw [opsLog_snoc,List.length_append] at hsmall; omega)
    cases op with
    | write wr =>
      obtain ⟨w₂,f₂,hcall⟩ := hp.kept.exists_writeAt hsmall
      exact ⟨w₂,f₂,.write wr ⟨none,none⟩ hp hcall⟩
    | trim t =>
      have hpos := t.length_pos
      obtain ⟨w₁,f₁,hhead⟩ := hp.kept.exists_writeHeader
      obtain ⟨h₁,_,hfile,_⟩ := hp.kept.writeHeader_ok hhead
      obtain ⟨w₂,f₂,hlog⟩ := h₁.exists_logAndIndex hfile hsmall ⟨0,t.off,t.length,true⟩
      refine ⟨w₂,f₂,.trim t ⟨none,none⟩ hp ?_⟩
      rw [Writer.trim,if_neg (by omega),hhead]
      exact hlog

theorem length_opsLog_le (codec : Codec) (ops : List Op) :
    (opsLog codec ops).length ≤ 100+(ops.map fun op => op.entry.len).sum := by
  have := codec.header_length
  have hbytes : (opsBytes ops).length = (ops.map fun op => op.entry.len).sum := by
    induction ops with
    | nil => rfl
    | cons op ops ih => simp [ih]
  simp only [opsLog,headerBytes,List.length_append,length_leBytes,hbytes,
    show headerMagic.length = 8 from rfl]
  omega

end Exists

/-- A write, and a trim of its middle. -/
def punched : List Op :=
  [.write ⟨2,[1,2,3],by decide,by decide,by decide⟩,.trim ⟨3,1,by decide,by decide,by decide⟩]

theorem readsBack_punched : ∃ w f, Performed wireCodec none punched w f ∧
    ReadsBack w f.bytes punched := by
  obtain ⟨w,f,h⟩ := exists_performed wireCodec none punched
    ((length_opsLog_le _ _).trans_lt (by decide))
  exact ⟨w,f,h,(readsBack_iff h (.inl ⟨rfl,rfl⟩)).mpr (by decide)⟩

theorem lastOffset_lt : 2^63-1 < 2^63 := by
  decide

/-- A write of two bytes at the largest offset. -/
def lastOffset : List Op := [.write ⟨2^63-1,[1,2],lastOffset_lt,by decide,by decide⟩]

/-- The bytes of a write that ends beyond `int64` are served, but `Size` does not count them. -/
theorem not_readsBack_lastOffset : ∃ w f, Performed wireCodec none lastOffset w f ∧
    ¬ReadsBack w f.bytes lastOffset := by
  obtain ⟨w,f,h⟩ := exists_performed wireCodec none lastOffset
    ((length_opsLog_le _ _).trans_lt (by decide))
  refine ⟨w,f,h,fun hback => ?_⟩
  have hlt := (h.kept.readsLike (.inl ⟨rfl,rfl⟩)).ends_lt hback _ List.mem_cons_self
  simp only [Op.off,Op.length,List.length_cons,List.length_nil] at hlt
  omega

end Wal
end Logblock
