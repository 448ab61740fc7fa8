import Logblock.WalFooter

/-! Closed logs. The footer stores one entry for each run of the index, and the index made of
these entries maps every device byte to the byte of the log that the scan maps it to. -/
namespace Logblock
namespace Wal

open Bytes ByteStream Loop Runs

section Section

variable (codec : Codec)

/-- The entries of a footer are read back. -/
theorem indexEntries_flatMap (es : List IndexEntry) (hes : ∀ e ∈ es, e.Fits) (fuel : ℕ)
    (hfuel : (es.flatMap (Writer.indexChunk codec)).length < fuel) :
    indexEntries codec fuel (es.flatMap (Writer.indexChunk codec)) = (es,true) := by
  induction es generalizing fuel with
  | nil =>
    obtain ⟨fuel,rfl⟩ : ∃ n, fuel = n+1 := ⟨fuel-1,by omega⟩
    simp [indexEntries]
  | cons e es ih =>
    obtain ⟨fuel,rfl⟩ : ∃ n, fuel = n+1 := ⟨fuel-1,by omega⟩
    have hlen := codec.entry_length e
    have he := hes e (by simp)
    have hpos := Proto.length_putUvarint_pos (codec.marshalEntry e).length
    rw [List.flatMap_cons,Writer.indexChunk,List.append_assoc] at hfuel ⊢
    rw [List.length_append,List.length_append] at hfuel
    have hsize : ¬(bufSize < (codec.marshalEntry e).length ∨
        (codec.marshalEntry e++es.flatMap (Writer.indexChunk codec)).length <
          (codec.marshalEntry e).length) := by
      rw [List.length_append]
      unfold bufSize
      omega
    rw [indexEntries,readUvarint_putUvarint (by omega)]
    simp only [if_neg hsize,List.take_left' rfl,List.drop_left' rfl,codec.entry_roundTrip e he,
      if_pos he.1]
    rw [ih (fun e' h' => hes e' (by simp [h'])) fuel (by omega)]

/-- The last bytes of a closed log declare the section before them. -/
theorem trailer_footer (pre : List UInt8) {sect : List UInt8} {crc : ℕ} (hs : sect.length < 2^32)
    (hc : crc < 2^32) :
    trailer (pre++(sect++leBytes 4 sect.length++leBytes 4 crc++footerMagic)) = some (sect,crc) := by
  have hmagic : footerMagic.length = 8 := rfl
  generalize hb : pre++(sect++leBytes 4 sect.length++leBytes 4 crc++footerMagic) = bytes
  have hlen : bytes.length = pre.length+sect.length+16 := by
    rw [← hb]
    simp only [List.length_append,length_leBytes,hmagic]
    omega
  have hend : bytes.drop (bytes.length-16) =
      leBytes 4 sect.length++(leBytes 4 crc++footerMagic) := by
    rw [hlen,← hb,show pre++(sect++leBytes 4 sect.length++leBytes 4 crc++footerMagic) =
      (pre++sect)++(leBytes 4 sect.length++(leBytes 4 crc++footerMagic)) by simp]
    exact List.drop_left' (by rw [List.length_append]; omega)
  have h4 : (leBytes 4 sect.length++(leBytes 4 crc++footerMagic)).drop 4 =
      leBytes 4 crc++footerMagic := List.drop_left' (length_leBytes 4 _)
  have h8 : (leBytes 4 sect.length++(leBytes 4 crc++footerMagic)).drop 8 = footerMagic := by
    rw [show 8 = 4+4 by rfl,← List.drop_drop,h4,List.drop_left' (length_leBytes 4 _)]
  have hsize : leNat ((leBytes 4 sect.length++(leBytes 4 crc++footerMagic)).take 4) =
      sect.length := by
    rw [List.take_left' (length_leBytes 4 _),leNat_leBytes (by omega)]
  have hcrc : leNat ((leBytes 4 crc++footerMagic).take 4) = crc := by
    rw [List.take_left' (length_leBytes 4 _),leNat_leBytes (by omega)]
  have hsect : (bytes.drop (bytes.length-16-sect.length)).take sect.length = sect := by
    rw [hlen,← hb,List.drop_left' (by omega),List.append_assoc,List.append_assoc,
      List.take_left' rfl]
  simp only [trailer,hend,h8,hsize,h4,hcrc,hsect]
  rw [if_pos ⟨by omega,trivial,by omega⟩]

end Section

/-- The runs that `CloseWriter` goes through. -/
def indexRuns (index : Index) : List (RangeValue LogRecord) :=
  coalesce ⟨⟨0,0⟩,default⟩ (index.clipped 0)

theorem indexRuns_isRuns {index : Index} (h : index.WF) : IsRuns index.get 0 (indexRuns index) :=
  coalesce_isRuns (ExtentRangeMap.clipped_isPieces h 0) _

theorem footerIndex_eq (codec : Codec) {w : Writer} (h : w.index.WF) : w.footerIndex codec =
    ((indexRuns w.index).map Writer.indexEntry).flatMap (Writer.indexChunk codec) := by
  rw [Writer.footerIndex,ExtentRangeMap.iterate_eq h,
    callUntil_collect fun mr => Writer.indexChunk codec (Writer.indexEntry mr),List.nil_append,
    List.flatMap_map]
  rfl

/-- The record that the reader makes of the stored form of a run. -/
def storedRecord (r : RangeValue LogRecord) : RangeValue LogRecord :=
  ⟨r.toRange,⟨r.value.logOffset+(r.offset-r.value.offset),i64 r.offset,r.length,false⟩⟩

/-- The byte of the log that a record gives for `x`. -/
def logByte (x : ℕ) (lr : LogRecord) : ℕ := lr.logOffset.toNat+(x-toU64 lr.offset)

section Stored

variable {codec : Codec} {ws : List Write} {index : Index}

theorem IndexOf.within_run (h : IndexOf codec ws index) {r : RangeValue LogRecord}
    (hr : r ∈ indexRuns index) : ∃ p wr, r.value = (recordAt p wr).value ∧ wr.off ≤ r.offset ∧
      r.offset+r.length ≤ wr.off+wr.data.length ∧ p+wr.entry.len ≤ (logBytes codec ws).length :=
  h.within ((indexRuns_isRuns h.spec.1).nonempty r hr) ((indexRuns_isRuns h.spec.1).valued r hr)

/-- The stored form of a run and the record it is read back as. -/
theorem IndexOf.entryRecord_eq (h : IndexOf codec ws index)
    (hlen : (logBytes codec ws).length < 2^63) {r : RangeValue LogRecord}
    (hr : r ∈ indexRuns index) : (Writer.indexEntry r).Fits ∧
      entryRecord (Writer.indexEntry r) = storedRecord r := by
  obtain ⟨p,wr,hv,h₁,h₂,hle⟩ := h.within_run hr
  have hend := wr.end_lt
  have hdata := wr.data_le
  have hwlen := wr.entry_len
  unfold maxWriteSize at hdata
  have hlog : ((r.value.logOffset : ℤ)+(r.offset-r.value.offset)) =
      ((p+16+(r.offset-wr.off) : ℕ) : ℤ) := by
    rw [hv]
    simp only [recordAt_eq]
    omega
  have hentry : Writer.indexEntry r = ⟨.write,r.offset,r.length,p+16+(r.offset-wr.off)⟩ := by
    rw [Writer.indexEntry,hlog,toU64_natCast (by omega)]
    simp [hv,recordAt_eq]
  rw [hentry]
  refine ⟨⟨rfl,by simp only; omega,by simp only; omega,by simp only; omega⟩,?_⟩
  rw [entryRecord,storedRecord,hlog]
  simp only [toU64_i64_natCast (show r.offset < 2^64 by omega),
    toU64_i64_natCast (show r.length < 2^64 by omega)]
  rw [i64_of_range (x := ((p+16+(r.offset-wr.off) : ℕ) : ℤ)) (by omega) (by omega),
    i64_of_range (x := (r.length : ℤ)) (by omega) (by omega)]

/-- The index of the stored runs: at a key of a run it has the stored record. -/
theorem IndexOf.exists_stored (h : IndexOf codec ws index) : ∃ index' : Index,
    ExtentRangeMap.empty.addAll ((indexRuns index).map storedRecord) = .ok index' ∧ index'.WF ∧
      index'.get = paintAll (fun _ => none) ((indexRuns index).map storedRecord) := by
  obtain ⟨m,hm,hwf,hget⟩ := ExtentRangeMap.addAll_spec ((indexRuns index).map storedRecord) .empty
    ExtentRangeMap.empty_wf (by
      intro q hq
      obtain ⟨r,hr,rfl⟩ := List.mem_map.mp hq
      obtain ⟨p,wr,-,-,h₂,-⟩ := h.within_run hr
      have := wr.end_lt
      show r.offset+r.length < 2^64
      omega)
  exact ⟨m,hm,hwf,hget⟩

section Get

variable {index' : Index} (h : IndexOf codec ws index)
  (hget : index'.get = paintAll (fun _ => none) ((indexRuns index).map storedRecord))
include h hget

theorem IndexOf.stored_get {r : RangeValue LogRecord} (hr : r ∈ indexRuns index) {x : ℕ}
    (hx : Has r.toRange x) : index'.get x = some (storedRecord r).value := by
  rw [hget]
  refine paintAll_of_ascending ?_ (List.mem_map_of_mem hr) hx
  exact List.pairwise_map.mpr (indexRuns_isRuns h.spec.1).ascending

theorem IndexOf.stored_none {x : ℕ} (hx : index.get x = none) : index'.get x = none := by
  by_contra hne
  obtain ⟨v,hv⟩ := Option.ne_none_iff_exists'.mp hne
  rw [hget] at hv
  rcases paintAll_eq_some hv with ⟨q,hq,hqx,-⟩ | hn
  · obtain ⟨r,hr,rfl⟩ := List.mem_map.mp hq
    rw [(indexRuns_isRuns h.spec.1).valued r hr x hqx] at hx
    cases hx
  · cases hn

/-- Both indexes map a device byte to the same byte of the log. -/
theorem IndexOf.stored_logByte (x : ℕ) :
    (index'.get x).map (logByte x) = (index.get x).map (logByte x) ∧
      (∀ lr, index'.get x = some lr → lr.zero = false) ∧
      ∀ lr, index.get x = some lr → lr.zero = false := by
  cases hx : index.get x with
  | none =>
    rw [h.stored_none hget hx]
    simp
  | some lr =>
    have hruns := indexRuns_isRuns h.spec.1
    obtain ⟨r,hr,hrx⟩ := hruns.covers x (Nat.zero_le x) (by rw [hx]; simp)
    have hlr : lr = r.value := by
      have := hruns.valued r hr x hrx
      rw [hx] at this
      exact Option.some.inj this
    obtain ⟨p,wr,hv,h₁,h₂,-⟩ := h.within_run hr
    have hend := wr.end_lt
    have hx₁ := hrx.1
    have hoff := wr.off_lt
    rw [h.stored_get hget hr hrx,hlr]
    simp only [Option.map_some,Option.some.injEq,forall_eq',logByte]
    refine ⟨?_,rfl,by rw [hv]; rfl⟩
    rw [storedRecord,hv]
    simp only [recordAt_eq,toU64_i64_natCast (show r.offset < 2^64 by omega),
      toU64_natCast (show wr.off < 2^64 by omega)]
    omega

theorem IndexOf.stored_eq_none (x : ℕ) : index'.get x = none ↔ index.get x = none := by
  have hbyte := (h.stored_logByte hget x).1
  rw [← Option.map_eq_none_iff (f := logByte x),hbyte,Option.map_eq_none_iff]

theorem IndexOf.stored_content (file : List UInt8) :
    Wal.content file index' = Wal.content file index := by
  funext x
  obtain ⟨hbyte,hz',hz⟩ := h.stored_logByte hget x
  rw [content_eq,content_eq]
  have hfile {o : Option LogRecord} (ho : ∀ lr, o = some lr → lr.zero = false) :
      o.map (fileByte file x) = (o.map (logByte x)).map fun k => file.getD k 0 := by
    cases o with
    | none => rfl
    | some lr => simp [fileByte,logByte,ho lr rfl]
  rw [hfile hz',hfile hz,hbyte]

theorem IndexOf.stored_readable (hwf : index'.WF) {tail : List UInt8}
    (hlen : (logBytes codec ws++tail).length < 2^63) :
    Readable (logBytes codec ws++tail) index' := by
  have hlen' := hlen
  rw [List.length_append] at hlen'
  have hread := h.readable hlen
  refine ⟨hwf,fun e he => ?_,fun k hk hne => ?_,hlen⟩
  · -- the record of an extent says where its run starts and how long it is
    obtain ⟨q,hq,hv,h₁,h₂⟩ := paintAll_within
      (show ∀ q ∈ (indexRuns index).map storedRecord, ∀ q' ∈ _, _ from fun q hq q' hq' hv => by
        obtain ⟨r,hr,rfl⟩ := List.mem_map.mp hq
        obtain ⟨r',hr',rfl⟩ := List.mem_map.mp hq'
        obtain ⟨-,wr,-,-,hb,-⟩ := h.within_run hr
        obtain ⟨-,wr',-,-,hb',-⟩ := h.within_run hr'
        have hend := wr.end_lt
        have hend' := wr'.end_lt
        simp only [storedRecord,LogRecord.mk.injEq,Nat.cast_inj] at hv
        have hoff := congrArg toU64 hv.2.1
        rw [toU64_i64_natCast (by omega),toU64_i64_natCast (by omega)] at hoff
        show r.toRange = r'.toRange
        rw [show r.toRange = ⟨r.offset,r.length⟩ by rfl,hoff,hv.2.2.1])
      (hwf.nonempty e he) fun x hx => by
        rw [← hget]
        exact (ExtentRangeMap.get_eq_some hwf).mpr ⟨e,he,hx,rfl⟩
    obtain ⟨r,hr,rfl⟩ := List.mem_map.mp hq
    obtain ⟨p,wr,hrv,h₃,h₄,hle⟩ := h.within_run hr
    have hend := wr.end_lt
    have hoff := wr.off_lt
    have hdata := wr.data_le
    have hwlen := wr.entry_len
    unfold maxWriteSize at hdata
    have hvo : e.value.offset = i64 r.offset := by rw [← hv]; rfl
    have hvl : e.value.length = r.length := by rw [← hv]; rfl
    have hvlog : e.value.logOffset = p+16+(r.offset-wr.off) := by
      rw [← hv,storedRecord,hrv]
      rfl
    have hstart : toU64 e.value.offset = r.offset := by
      rw [hvo,toU64_i64_natCast (by omega)]
    have hro : r.offset ≤ e.offset := h₁
    have hre : e.offset+e.length ≤ r.offset+r.length := h₂
    refine ⟨?_,by omega,by omega,by omega,fun _ => ⟨by omega,?_⟩⟩
    · rw [hvo]
      unfold i64
      omega
    · rw [List.length_append]
      omega
  · rw [ne_eq,h.stored_eq_none hget] at hne ⊢
    exact hread.solid k hk hne

/-- Reads, and the questions where data and holes start, do not tell the indexes apart. -/
theorem IndexOf.stored_answers (hwf : index'.WF) {tail : List UInt8}
    (hlen : (logBytes codec ws++tail).length < 2^63) :
    (∀ off, Wal.nextData index' off = Wal.nextData index off ∧
      Wal.nextHole index' off = Wal.nextHole index off) ∧
    ∀ n off, -2^63 ≤ off → off < 2^63 → readIndexed (logBytes codec ws++tail) index' n off =
      readIndexed (logBytes codec ws++tail) index n off := by
  have hnone := h.stored_eq_none hget
  have hwf₀ := h.spec.1
  refine ⟨fun off => ⟨?_,?_⟩,fun n off h₁ h₂ => ?_⟩
  · have hkey : index'.nextKey (toU64 off) = index.nextKey (toU64 off) :=
      ((ExtentRangeMap.nextKey_spec hwf _).congr fun z => not_congr (hnone z)).unique
        (ExtentRangeMap.nextKey_spec hwf₀ _)
    rw [Wal.nextData,Wal.nextData,hkey]
  · have hempty : some (index'.nextEmpty (toU64 off)) = some (index.nextEmpty (toU64 off)) :=
      ((ExtentRangeMap.nextEmpty_spec hwf _).congr hnone).unique
        (ExtentRangeMap.nextEmpty_spec hwf₀ _)
    rw [Wal.nextHole,Wal.nextHole,Option.some.inj hempty]
  · have hend : index'.endKey = index.endKey := by
      obtain ⟨e₁,e₂⟩ := ExtentRangeMap.endKey_spec hwf
      obtain ⟨e₃,e₄⟩ := ExtentRangeMap.endKey_spec hwf₀
      exact end_unique (c := index.get) (fun x hx => (hnone x).mp (e₁ x hx))
        (fun hpos hn => e₂ hpos ((hnone _).mpr hn)) e₃ e₄
    rw [(h.stored_readable hget hwf hlen).readIndexed_eq n off h₁ h₂,
      (h.readable hlen).readIndexed_eq n off h₁ h₂,h.stored_content hget,hend]

end Get

end Stored

section Ends

theorem moveEnd_natCast {a o l : ℕ} (h : o+l < 2^63) :
    Writer.moveEnd a o l = ((max a (o+l) : ℕ) : ℤ) := by
  unfold Writer.moveEnd
  rw [i64_of_range (by omega) (by omega)]
  split_ifs with hlt <;> omega

/-- The size of a log is the end of its furthest write, unless a write ends beyond `int64`. -/
theorem endOf_eq_stopOf (ws : List Write) (h : ∀ wr ∈ ws, wr.off+wr.data.length < 2^63) :
    endOf ws = stopOf ws := by
  induction ws using List.reverseRecOn with
  | nil => rfl
  | append_singleton ws wr ih =>
    rw [endOf_snoc,stopOf_snoc,ih fun q hq => h q (by simp [hq]),
      moveEnd_natCast (h wr (by simp))]

/-- The end of the furthest of some runs. -/
def runsEnd (n : ℕ) (rs : List (RangeValue LogRecord)) : ℕ :=
  rs.foldl (fun n r => max n (r.offset+r.length)) n

theorem runsEnd_spec (n : ℕ) (rs : List (RangeValue LogRecord)) : n ≤ runsEnd n rs ∧
    (∀ r ∈ rs, r.offset+r.length ≤ runsEnd n rs) ∧
    (runsEnd n rs = n ∨ ∃ r ∈ rs, runsEnd n rs = r.offset+r.length) := by
  induction rs generalizing n with
  | nil => simp [runsEnd]
  | cons r rs ih =>
    obtain ⟨h₁,h₂,h₃⟩ := ih (max n (r.offset+r.length))
    rw [show runsEnd n (r::rs) = runsEnd (max n (r.offset+r.length)) rs by rfl]
    refine ⟨by omega,fun q hq => ?_,?_⟩
    · rcases List.mem_cons.mp hq with rfl | hq
      · omega
      · exact h₂ q hq
    · rcases h₃ with h₃ | ⟨q,hq,h₃⟩
      · rcases max_choice n (r.offset+r.length) with hm | hm
        · exact .inl (h₃.trans hm)
        · exact .inr ⟨r,by simp,h₃.trans hm⟩
      · exact .inr ⟨q,by simp [hq],h₃⟩

theorem runsEnd_eq_endKey {index : Index} (h : index.WF) :
    runsEnd 0 (indexRuns index) = index.endKey := by
  have hruns := indexRuns_isRuns h
  obtain ⟨-,hle,hmem⟩ := runsEnd_spec 0 (indexRuns index)
  obtain ⟨e₁,e₂⟩ := ExtentRangeMap.endKey_spec h
  refine end_unique (c := index.get) (fun x hx => ?_) (fun hpos => ?_) e₁ e₂
  · by_contra hne
    obtain ⟨r,hr,hrx⟩ := hruns.covers x (Nat.zero_le x) hne
    have := hle r hr
    have := hrx.2
    omega
  · rcases hmem with h0 | ⟨r,hr,hend⟩
    · omega
    · have := hruns.nonempty r hr
      rw [hruns.valued r hr _ ⟨by omega,by omega⟩]
      simp

variable {codec : Codec} {ws : List Write} {index : Index}

/-- The end that the reader takes from the stored runs. -/
theorem entriesEnd_indexEntry (n : ℕ) (rs : List (RangeValue LogRecord))
    (h : ∀ r ∈ rs, r.offset+r.length < 2^63) :
    entriesEnd n (rs.map Writer.indexEntry) = runsEnd n rs := by
  induction rs generalizing n with
  | nil => rfl
  | cons r rs ih =>
    have hr := h r (by simp)
    have hoff : (Writer.indexEntry r).offset = r.offset := by
      unfold Writer.indexEntry
      split_ifs <;> rfl
    have hlen : (Writer.indexEntry r).length = r.length := by
      unfold Writer.indexEntry
      split_ifs <;> rfl
    rw [List.map_cons,entriesEnd_cons,hoff,hlen,i64_of_range (by omega) (by omega),
      i64_of_range (by omega) (by omega),moveEnd_natCast hr,ih _ fun q hq => h q (by simp [hq])]
    rfl

theorem IndexOf.entriesEnd_eq (h : IndexOf codec ws index)
    (hends : ∀ wr ∈ ws, wr.off+wr.data.length < 2^63) :
    entriesEnd 0 ((indexRuns index).map Writer.indexEntry) = endOf ws := by
  have hstop : index.endKey < 2^63 := by
    rw [h.endKey]
    have : stopOf ws ≤ 2^63-1 := by
      clear h
      induction ws using List.reverseRecOn with
      | nil => simp [stopOf]
      | append_singleton ws wr ih =>
        have := ih fun q hq => hends q (by simp [hq])
        have := hends wr (by simp)
        rw [stopOf_snoc]
        omega
    omega
  have hend := runsEnd_eq_endKey h.spec.1
  have := entriesEnd_indexEntry 0 (indexRuns index) fun r hr => by
    have := (runsEnd_spec 0 (indexRuns index)).2.1 r hr
    omega
  rw [endOf_eq_stopOf ws hends,← h.endKey,← hend]
  exact this

end Ends

/-- A closed log is opened through its footer, with the index of the stored runs. -/
theorem Logged.newReader_closed {codec : Codec} {ws : List Write} {w w' : Writer} {f f' : File}
    {fault : Option ℕ} (hl : Logged codec w f ws [])
    (hclose : w.closeWriter codec f fault = (w',f',none))
    (hfoot : (w.footerIndex codec).length < 2^32) {index' : Index}
    (hadd : ExtentRangeMap.empty.addAll ((indexRuns w.index).map storedRecord) = .ok index') :
    readIndex codec f'.bytes f'.bytes.length =
        .ok (.ok (index',entriesEnd 0 ((indexRuns w.index).map Writer.indexEntry))) ∧
      newReader codec f'.bytes f'.bytes.length = .ok (⟨f'.bytes,
        entriesEnd 0 ((indexRuns w.index).map Writer.indexEntry),index'⟩,none) := by
  have hbytes : f'.bytes = logBytes codec ws++(footerEntry.bytes++w.footerBytes codec) :=
    hl.closeWriter hclose
  have hsmall := f'.small
  have hlen : (logBytes codec ws).length < 2^63 := by
    rw [hbytes,List.length_append] at hsmall
    omega
  -- the probe decodes the runs of the index and accepts them
  have hfooter : footerEntries codec f'.bytes =
      ((indexRuns w.index).map Writer.indexEntry,true) := by
    have htrailer : trailer f'.bytes =
        some (w.footerIndex codec,crc32 (w.footerIndex codec)) := by
      rw [hbytes,← List.append_assoc]
      exact trailer_footer _ hfoot (crc32_lt _)
    have hentries := indexEntries_flatMap codec ((indexRuns w.index).map Writer.indexEntry) (by
      intro e he
      obtain ⟨r,hr,rfl⟩ := List.mem_map.mp he
      exact (hl.index.entryRecord_eq hlen hr).1) ((w.footerIndex codec).length+1) (by
      rw [← footerIndex_eq codec hl.index.spec.1]
      omega)
    rw [← footerIndex_eq codec hl.index.spec.1] at hentries
    rw [footerEntries,htrailer]
    simp [hentries]
  have hrecords : (footerEntries codec f'.bytes).1.map entryRecord =
      (indexRuns w.index).map storedRecord := by
    rw [hfooter,List.map_map]
    exact List.map_congr_left fun r hr => (hl.index.entryRecord_eq hlen hr).2
  have hindex : readIndex codec f'.bytes f'.bytes.length =
      .ok (.ok (index',entriesEnd 0 ((indexRuns w.index).map Writer.indexEntry))) := by
    have := (readIndex_probe codec hsmall).2.1 index' (by rw [hrecords]; exact hadd)
      (by rw [hfooter])
    rw [hfooter] at this
    exact this
  have hhead : readHeader codec f'.bytes = .ok ((headerBytes codec).length,
      entriesBytes ws++(footerEntry.bytes++w.footerBytes codec)) := by
    rw [hbytes,logBytes,List.append_assoc,readHeader_headerBytes]
  have hpos : (f'.bytes.length : ℤ) > 0 := by
    rw [hbytes,logBytes,List.length_append,List.length_append,headerBytes_length]
    omega
  refine ⟨hindex,?_⟩
  unfold newReader
  rw [hhead]
  simp only [if_pos hpos,hindex,bind,Except.bind]

theorem Logged.newReader_scan_closed {codec : Codec} {ws : List Write} {w w' : Writer}
    {f f' : File} {fault : Option ℕ} (hl : Logged codec w f ws [])
    (hclose : w.closeWriter codec f fault = (w',f',none)) :
    newReader codec f'.bytes 0 = .ok (⟨f'.bytes,endOf ws,w.index⟩,none) := by
  have hsmall := f'.small
  rw [hl.closeWriter hclose] at hsmall ⊢
  rw [List.length_append] at hsmall
  exact newReader_scan (ends_footer _) (by omega) hl.index (.inl le_rfl)

/-- A write across the largest `int64`, and a write of the byte below it. -/
def endWrites : List Write :=
  [⟨2^63-4,[1,1,1,1,1,1,1,1],by decide,by decide,by decide⟩,
    ⟨2^63-1,[9],by decide,by decide,by decide⟩]

end Wal
end Logblock
