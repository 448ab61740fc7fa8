import Logblock.WalScan

/-! Replay of a log. The writer and the reader of the bytes it left index the same records,
and through them both read the byte that was written last. -/
namespace Logblock
namespace Wal

open Bytes ByteStream Loop Runs

/-- The byte that a call leaves at a position of its range: a trim leaves zeros. -/
def Op.byteAt (x : ℕ) : Op → Option UInt8
  | .write wr => wr.data[x-wr.off]?
  | .trim _ => some 0

/-- A call over the bytes there were. -/
def Op.store (c : ℕ → Option UInt8) (op : Op) (x : ℕ) : Option UInt8 :=
  if op.off ≤ x ∧ x < op.off+op.length then op.byteAt x else c x

/-- The byte stored last at each position. -/
def stored (ops : List Op) : ℕ → Option UInt8 := ops.foldl Op.store fun _ => none

/-- The byte last written at each position. -/
def lastWritten (ws : List Write) : ℕ → Option UInt8 := stored (ws.map .write)

/-- The end of the furthest write. -/
def stopOf (ws : List Write) : ℕ := ws.foldl (fun n wr => max n (wr.off+wr.data.length)) 0

section Readable

variable {codec : Codec} {ops : List Op} {index : Index} {tail : List UInt8}

/-- A stretch of the index with one record lies in the range of its call. -/
theorem IndexOfOps.within (h : IndexOfOps codec ops index) {e : RangeValue LogRecord}
    (hpos : 0 < e.length) (he : ∀ x, Has e.toRange x → index.get x = some e.value) :
    ∃ p op, op ∈ ops ∧ e.value = (op.record p).value ∧ op.off ≤ e.offset ∧
      e.offset+e.length ≤ op.off+op.length ∧ p+op.entry.len ≤ (opsLog codec ops).length := by
  obtain ⟨r,hr,hv,h₁,h₂⟩ := paintAll_within
    (show ∀ r ∈ opRecords (headerBytes codec).length ops, ∀ r' ∈ _, _ from fun r hr r' hr' hv => by
      obtain ⟨p,op,-,rfl,-⟩ := mem_opRecords hr
      obtain ⟨p',op',-,rfl,-⟩ := mem_opRecords hr'
      have h₁ := op.logRecord_range (p+16)
      have h₂ := op'.logRecord_range (p'+16)
      rw [show op.logRecord (p+16) = op'.logRecord (p'+16) from hv] at h₁
      simp only [Op.record,Range.mk.injEq]
      omega)
    hpos fun x hx => by rw [← h.spec.2]; exact he x hx
  obtain ⟨p,op,hop,rfl,hle⟩ := mem_opRecords hr
  refine ⟨p,op,hop,hv.symm,h₁,h₂,?_⟩
  rw [opsLog,List.length_append]
  exact hle

/-- The index of a log can be read, whatever follows the entries in the file. -/
theorem IndexOfOps.readable (h : IndexOfOps codec ops index)
    (hlen : (opsLog codec ops++tail).length < 2^63) : Readable (opsLog codec ops++tail) index := by
  obtain ⟨hwf,hget⟩ := h.spec
  refine ⟨hwf,fun e he => ?_,fun k hk hne => ?_,hlen⟩
  · obtain ⟨p,op,-,hv,h₁,h₂,hle⟩ := h.within (hwf.nonempty e he) fun x hx =>
      (ExtentRangeMap.get_eq_some hwf).mpr ⟨e,he,hx,rfl⟩
    have hoff := op.off_lt
    have hlt := op.length_lt
    obtain ⟨hvo,hvl⟩ := op.logRecord_range (p+16)
    rw [show op.logRecord (p+16) = e.value from hv.symm] at hvo hvl
    have hu : toU64 e.value.offset = op.off := by rw [hvo]; exact toU64_natCast (by omega)
    rw [List.length_append] at hlen
    refine ⟨⟨by omega,by omega⟩,by omega,by omega,by omega,fun hzero => ?_⟩
    cases op with
    | trim t =>
      rw [hv] at hzero
      cases hzero
    | write wr =>
      have hwlen : (Op.write wr).entry.len = 16+wr.data.length := wr.entry_len
      have hvlog : e.value.logOffset = p+16 := by rw [hv]; rfl
      have hvl' : e.value.length = wr.data.length := hvl
      refine ⟨by omega,?_⟩
      rw [List.length_append]
      omega
  · -- a key beyond the largest `int64` is in a range that starts below
    rw [hget] at hne ⊢
    obtain ⟨lr,hlr⟩ := Option.ne_none_iff_exists'.mp hne
    rcases paintAll_eq_some hlr with ⟨r,hr,hx,-⟩ | hn
    · obtain ⟨p,op,-,rfl,-⟩ := mem_opRecords hr
      have hoff := op.off_lt
      have h₁ : op.off ≤ k := hx.1
      have h₂ : k < op.off+op.length := hx.2
      refine paintAll_ne_none (.inl ⟨op.record p,hr,?_,?_⟩)
      · show op.off ≤ k-1
        omega
      · show k-1 < op.off+op.length
        omega
    · cases hn

/-- The byte of the file that a record gives for `x`. -/
def fileByte (file : List UInt8) (x : ℕ) (lr : LogRecord) : UInt8 :=
  if lr.zero then 0 else file.getD (lr.logOffset.toNat+(x-toU64 lr.offset)) 0

theorem content_eq (file : List UInt8) (index : Index) (x : ℕ) :
    content file index x = (index.get x).map (fileByte file x) := rfl

/-- The record of an entry gives the data of the entry. -/
theorem fileByte_recordAt {file rest : List UInt8} {pos : ℕ} {wr : Write}
    (hfile : file.drop pos = wr.entry.bytes++rest) {x : ℕ} (h₁ : wr.off ≤ x)
    (h₂ : x < wr.off+wr.data.length) :
    some (fileByte file x (recordAt pos wr).value) = wr.data[x-wr.off]? := by
  have hoff := wr.off_lt
  have hu : toU64 (wr.off : ℤ) = wr.off := toU64_natCast (by omega)
  have hheader : wr.entry.header.length = 16 := dataEntry_header_length _ _
  have hlog : ((pos : ℤ)+16).toNat+(x-wr.off) = pos+(16+(x-wr.off)) := by omega
  simp only [fileByte,recordAt_eq,Bool.false_eq_true,if_false]
  rw [hu,hlog,List.getD_eq_getElem?_getD,← List.getElem?_drop,hfile,LogEntry.bytes,
    List.append_assoc,List.getElem?_append_right (by omega),hheader,
    List.getElem?_append_left (show 16+(x-wr.off)-16 < wr.entry.data.length by
      show _ < wr.data.length
      omega),show 16+(x-wr.off)-16 = x-wr.off by omega]
  show some ((wr.data[x-wr.off]?).getD 0) = _
  rw [List.getElem?_eq_getElem (by omega)]
  rfl

/-- One call over the content of the index. -/
theorem paint_record {file rest : List UInt8} {pos : ℕ} {op : Op}
    (hfile : file.drop pos = op.entry.bytes++rest) {c : ℕ → Option LogRecord}
    {d : ℕ → Option UInt8} (hcd : ∀ x, (c x).map (fileByte file x) = d x) (x : ℕ) :
    (paint c (op.record pos) x).map (fileByte file x) = op.store d x := by
  have hrange : Has (op.record pos).toRange x ↔ op.off ≤ x ∧ x < op.off+op.length := Iff.rfl
  by_cases hx : op.off ≤ x ∧ x < op.off+op.length
  · rw [paint,if_pos (hrange.mpr hx),Op.store,if_pos hx]
    cases op with
    | write wr => exact fileByte_recordAt hfile hx.1 hx.2
    | trim t => rfl
  · rw [paint,if_neg (mt hrange.mp hx),hcd,Op.store,if_neg hx]

theorem paintAll_opRecords {file rest : List UInt8} {pos : ℕ} (ops : List Op)
    (hfile : file.drop pos = opsBytes ops++rest) (c : ℕ → Option LogRecord)
    (d : ℕ → Option UInt8) (hcd : ∀ x, (c x).map (fileByte file x) = d x) (x : ℕ) :
    (paintAll c (opRecords pos ops) x).map (fileByte file x) = ops.foldl Op.store d x := by
  induction ops generalizing pos c d with
  | nil => exact hcd x
  | cons op ops ih =>
    rw [opsBytes_cons,List.append_assoc] at hfile
    rw [opRecords,paintAll_cons,List.foldl_cons]
    refine ih ?_ _ _ fun y => paint_record hfile hcd y
    rw [← List.drop_drop,hfile,← LogEntry.length_bytes,List.drop_left' rfl]

/-- Through the index every position reads as the last call left it. -/
theorem IndexOfOps.content (h : IndexOfOps codec ops index) :
    Wal.content (opsLog codec ops++tail) index = stored ops := by
  funext x
  rw [content_eq,h.spec.2]
  have hdrop : (opsLog codec ops++tail).drop (headerBytes codec).length = opsBytes ops++tail := by
    rw [opsLog,List.append_assoc,List.drop_left' rfl]
  exact paintAll_opRecords ops hdrop _ _ (fun _ => rfl) x

end Readable

theorem stored_snoc (ops : List Op) (op : Op) : stored (ops++[op]) = op.store (stored ops) := by
  rw [stored,List.foldl_append]
  rfl

theorem Op.byteAt_ne_none {op : Op} {x : ℕ} (h₁ : op.off ≤ x) (h₂ : x < op.off+op.length) :
    op.byteAt x ≠ none := by
  cases op with
  | write wr =>
    have hlt : x-wr.off < wr.data.length := by
      simp only [Op.off,Op.length] at h₁ h₂
      omega
    rw [Op.byteAt,List.getElem?_eq_getElem hlt]
    exact Option.some_ne_none _
  | trim t => exact Option.some_ne_none _

theorem Op.store_ne_none {c : ℕ → Option UInt8} {op : Op} {x : ℕ} :
    op.store c x ≠ none ↔ (op.off ≤ x ∧ x < op.off+op.length) ∨ c x ≠ none := by
  by_cases hx : op.off ≤ x ∧ x < op.off+op.length
  · rw [Op.store,if_pos hx]
    exact iff_of_true (op.byteAt_ne_none hx.1 hx.2) (.inl hx)
  · rw [Op.store,if_neg hx]
    simp only [hx,false_or]

section Writes

variable {codec : Codec} {ws : List Write} {index : Index} {tail : List UInt8}

/-- A stretch of the index with one record lies in the write of that record. -/
theorem IndexOf.within (h : IndexOf codec ws index) {e : RangeValue LogRecord} (hpos : 0 < e.length)
    (he : ∀ x, Has e.toRange x → index.get x = some e.value) : ∃ p wr,
      e.value = (recordAt p wr).value ∧ wr.off ≤ e.offset ∧
      e.offset+e.length ≤ wr.off+wr.data.length ∧ p+wr.entry.len ≤ (logBytes codec ws).length := by
  obtain ⟨p,op,hop,hrest⟩ := IndexOfOps.within h hpos he
  obtain ⟨wr,_,rfl⟩ := List.mem_map.mp hop
  exact ⟨p,wr,hrest⟩

theorem IndexOf.readable (h : IndexOf codec ws index)
    (hlen : (logBytes codec ws++tail).length < 2^63) : Readable (logBytes codec ws++tail) index :=
  IndexOfOps.readable h hlen

theorem IndexOf.content (h : IndexOf codec ws index) :
    Wal.content (logBytes codec ws++tail) index = lastWritten ws :=
  IndexOfOps.content h

theorem lastWritten_snoc (ws : List Write) (wr : Write) :
    lastWritten (ws++[wr]) = (Op.write wr).store (lastWritten ws) := by
  rw [lastWritten,List.map_append]
  exact stored_snoc _ _

theorem stopOf_snoc (ws : List Write) (wr : Write) :
    stopOf (ws++[wr]) = max (stopOf ws) (wr.off+wr.data.length) := by
  rw [stopOf,List.foldl_append]
  rfl

/-- Nothing is written from the end on, and the position before it is written. -/
theorem stopOf_spec (ws : List Write) : (∀ x, stopOf ws ≤ x → lastWritten ws x = none) ∧
    (0 < stopOf ws → lastWritten ws (stopOf ws-1) ≠ none) := by
  induction ws using List.reverseRecOn with
  | nil => simp [stopOf,lastWritten,stored]
  | append_singleton ws wr ih =>
    obtain ⟨ih₁,ih₂⟩ := ih
    have hpos := wr.data_pos
    rw [stopOf_snoc,lastWritten_snoc]
    refine ⟨fun x hx => ?_,fun _ => Op.store_ne_none.mpr ?_⟩
    · rw [Op.store,if_neg (by simp only [Op.off,Op.length]; omega),ih₁ x (by omega)]
    · simp only [Op.off,Op.length]
      by_cases hle : stopOf ws ≤ wr.off+wr.data.length
      · exact .inl (by omega)
      · right
        rw [max_eq_left (by omega)]
        exact ih₂ (by omega)

theorem IndexOf.endKey (h : IndexOf codec ws index) : index.endKey = stopOf ws := by
  obtain ⟨h₁,h₂⟩ := ExtentRangeMap.endKey_spec h.spec.1
  obtain ⟨h₃,h₄⟩ := stopOf_spec ws
  have hcontent : Wal.content (logBytes codec ws++[]) index = lastWritten ws := h.content
  have hc : ∀ x, index.get x = none ↔ lastWritten ws x = none := fun x => by
    rw [← hcontent,content_eq,Option.map_eq_none_iff]
  exact end_unique h₁ h₂ (fun x hx => (hc x).mpr (h₃ x hx))
    fun hpos hn => h₄ hpos ((hc _).mp hn)

/-- A read through the index of a log returns the bytes last written. -/
theorem IndexOf.readIndexed_eq (h : IndexOf codec ws index)
    (hlen : (logBytes codec ws++tail).length < 2^63) (n : ℕ) {off : ℤ} (h₁ : 0 ≤ off)
    (h₂ : off < 2^63) : readIndexed (logBytes codec ws++tail) index n off =
      .ok (readResult (lastWritten ws) (stopOf ws) n off.toNat) := by
  have hu : toU64 off = off.toNat := by unfold toU64; omega
  rw [(h.readable hlen).readIndexed_eq n off (by omega) h₂,h.content,h.endKey,hu]

end Writes

/-- The reader serves exactly the writes `ws`. -/
structure Serves (r : Reader) (ws : List Write) : Prop where
  size : r.size = endOf ws
  readAt : ∀ n off, 0 ≤ off → off < 2^63 →
    r.readAt n off = .ok (readResult (lastWritten ws) (stopOf ws) n off.toNat)
  nextData : ∀ off, 0 ≤ off → off < 2^63 → ∃ o,
    LeastFrom (fun x => lastWritten ws x ≠ none) off.toNat o ∧
      r.nextData off = (match o with | none => (0,some .eof) | some y => (i64 y,none))
  nextHole : ∀ off, 0 ≤ off → off < 2^63 → ∃ y,
    LeastFrom (fun x => lastWritten ws x = none) off.toNat (some y) ∧ r.nextHole off = (i64 y,none)

/-- A reader serves the writes if its index has their content. -/
theorem serves_of_content {r : Reader} {ws : List Write} (hr : Readable r.ra r.index)
    (hc : content r.ra r.index = lastWritten ws) (hsize : r.endOff = endOf ws) : Serves r ws := by
  have hnone : ∀ x, r.index.get x = none ↔ lastWritten ws x = none := fun x => by
    rw [← hc,content_eq,Option.map_eq_none_iff]
  have hu {off : ℤ} (h₁ : 0 ≤ off) (h₂ : off < 2^63) : toU64 off = off.toNat := by
    unfold toU64
    omega
  refine ⟨hsize,fun n off h₁ h₂ => ?_,fun off h₁ h₂ => ?_,fun off h₁ h₂ => ?_⟩
  · have hend : r.index.endKey = stopOf ws := by
      obtain ⟨h₃,h₄⟩ := ExtentRangeMap.endKey_spec hr.wf
      obtain ⟨h₅,h₆⟩ := stopOf_spec ws
      exact end_unique h₃ h₄ (fun x hx => (hnone x).mpr (h₅ x hx))
        fun hpos hn => h₆ hpos ((hnone _).mp hn)
    rw [Reader.readAt,hr.readIndexed_eq n off (by omega) h₂,hc,hend,hu h₁ h₂]
  · refine ⟨r.index.nextKey off.toNat,?_,?_⟩
    · exact (ExtentRangeMap.nextKey_spec hr.wf _).congr fun z => not_congr (hnone z)
    · cases hnext : r.index.nextKey off.toNat <;>
        simp only [Reader.nextData,nextData,hu h₁ h₂,hnext]
  · refine ⟨r.index.nextEmpty off.toNat,?_,?_⟩
    · exact (ExtentRangeMap.nextEmpty_spec hr.wf _).congr hnone
    · rw [Reader.nextHole,nextHole,hu h₁ h₂]

theorem IndexOf.serves {codec : Codec} {ws : List Write} {index : Index} {tail : List UInt8}
    (h : IndexOf codec ws index) (hlen : (logBytes codec ws++tail).length < 2^63) :
    Serves ⟨logBytes codec ws++tail,endOf ws,index⟩ ws :=
  serves_of_content (h.readable hlen) h.content rfl

/-- The reader of an unclosed log agrees with its writer, and both read what was written.
The log of no write is an empty file, which the reader takes for a torn one. -/
theorem newReader_agrees_with_writer {codec : Codec} {rf : Option ℕ} {ws : List Write} {w : Writer}
    {f : File} (h : Written codec rf ws w f) {size : ℤ}
    (hfooter : FooterNotTaken codec f.bytes size) :
    ∃ r, newReader codec f.bytes size = .ok (r,if ws = [] then some .unexpectedEOF else none) ∧
      r.size = w.size ∧
      (∀ off, r.nextData off = w.nextData off ∧ r.nextHole off = w.nextHole off) ∧
      (∀ n off, r.readAt n off = w.readAtFrom f.bytes n off) ∧
      ∀ n off, 0 ≤ off → off < 2^63 →
        r.readAt n off = .ok (readResult (lastWritten ws) (stopOf ws) n off.toNat) := by
  rcases h.logged with ⟨rfl,rfl,rfl⟩ | ⟨hne,hl⟩
  · refine ⟨⟨[],0,.empty⟩,rfl,rfl,fun _ => ⟨rfl,rfl⟩,fun _ _ => rfl,fun n off h₁ h₂ => ?_⟩
    have hu : toU64 off = off.toNat := by unfold toU64; omega
    have hr : Readable [] .empty :=
      ⟨ExtentRangeMap.empty_wf,by simp [ExtentRangeMap.empty],by simp,by simp⟩
    have := hr.readIndexed_eq n off (by omega) h₂
    rw [hu] at this
    exact this
  · have hfile : f.bytes = logBytes codec ws++[] := hl.file
    have hsmall := f.small
    rw [hfile] at hsmall hfooter ⊢
    refine ⟨⟨_,endOf ws,w.index⟩,?_,hl.endOff.symm,fun _ => ⟨rfl,rfl⟩,fun _ _ => rfl,
      fun n off h₁ h₂ => hl.index.readIndexed_eq hsmall n h₁ h₂⟩
    rw [if_neg hne]
    exact newReader_scan ends_nil (by simpa using hsmall) hl.index hfooter

/-- Two overlapping writes after a hole. -/
theorem newReader_agrees_on_overlap : ∃ w f r,
    Written wireCodec none [⟨2,[1,2,3],by decide,by decide,by decide⟩,
      ⟨4,[9],by decide,by decide,by decide⟩] w f ∧
    FooterNotTaken wireCodec f.bytes 0 ∧ newReader wireCodec f.bytes 0 = .ok (r,none) ∧
    r.readAt 6 0 = .ok ([0,0,1,2,9],some .eof) := by
  obtain ⟨w,f,hw⟩ := exists_written wireCodec none [⟨2,[1,2,3],by decide,by decide,by decide⟩,
    ⟨4,[9],by decide,by decide,by decide⟩] (by decide +kernel)
  obtain ⟨r,hr,-,-,-,hread⟩ := newReader_agrees_with_writer hw
    (show FooterNotTaken wireCodec f.bytes 0 from .inl le_rfl)
  exact ⟨w,f,r,hw,.inl le_rfl,hr,(hread 6 0 le_rfl (by decide)).trans rfl⟩

/-- Without a write there is no header, and the reader reports a torn file. -/
theorem newReader_of_no_write : Written wireCodec none [] (Writer.new none) .empty ∧
    FooterNotTaken wireCodec File.empty.bytes 0 ∧
    newReader wireCodec File.empty.bytes 0 = .ok (⟨[],0,.empty⟩,some .unexpectedEOF) :=
  ⟨.new,.inl le_rfl,rfl⟩

end Wal
end Logblock
