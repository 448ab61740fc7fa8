import Logblock.WalTorn

/-! The footer of a closed log: what the probe of the last bytes accepts, and that the index
it stores is the index of the scan. -/
namespace Logblock
namespace Wal

open Bytes ByteStream Loop Runs

/-- What the last sixteen bytes declare: the section of the index and its checksum. -/
def trailer (bytes : List UInt8) : Option (List UInt8 × ℕ) :=
  let footerEnd := bytes.drop (bytes.length-16)
  let footerSize := leNat (footerEnd.take 4)
  if 16 ≤ bytes.length ∧ footerEnd.drop 8 = footerMagic ∧ footerSize+16 ≤ bytes.length then
    some ((bytes.drop (bytes.length-16-footerSize)).take footerSize,
      leNat ((footerEnd.drop 4).take 4))
  else none

/-- The entries at the start of a section, and whether they are all of it. -/
def indexEntries (codec : Codec) : ℕ → List UInt8 → List IndexEntry × Bool
  | 0, _ => ([],false)
  | fuel+1, rest =>
    match readUvarint rest with
    | .error .eof => ([],true)
    | .error _ => ([],false)
    | .ok (entrySize,rest) =>
      if bufSize < entrySize ∨ rest.length < entrySize then ([],false)
      else
        match codec.unmarshalEntry (rest.take entrySize) with
        | none => ([],false)
        | some entry =>
          if entry.type = .write then
            (entry::(indexEntries codec fuel (rest.drop entrySize)).1,
              (indexEntries codec fuel (rest.drop entrySize)).2)
          else ([],false)

/-- The record that the reader makes of an entry. -/
def entryRecord (e : IndexEntry) : RangeValue LogRecord :=
  ⟨⟨toU64 (i64 e.offset),toU64 (i64 e.length)⟩,⟨i64 e.logOffset,i64 e.offset,i64 e.length,false⟩⟩

def entriesEnd (endOff : ℤ) (es : List IndexEntry) : ℤ :=
  es.foldl (fun e entry => Writer.moveEnd e (i64 entry.offset) (i64 entry.length)) endOff

section Probe

variable (codec : Codec) {sect : List UInt8} {crc : ℕ}

/-- What the loop over the section returns: a panic of the index, the index if the entries
are the whole section and the checksum is right, and an error otherwise. -/
structure ProbeResult (sect : List UInt8) (crc : ℕ) (index : Index) (endOff : ℤ)
    (parsed : List IndexEntry × Bool) (result : Exec (Except Error (Index × ℤ))) : Prop where
  fault : ∀ fault, index.addAll (parsed.1.map entryRecord) = .error fault → result = .error fault
  accept : ∀ index', index.addAll (parsed.1.map entryRecord) = .ok index' → parsed.2 = true →
    crc32 sect = crc → result = .ok (.ok (index',entriesEnd endOff parsed.1))
  reject : ∀ index', index.addAll (parsed.1.map entryRecord) = .ok index' →
    ¬(parsed.2 = true ∧ crc32 sect = crc) → ∃ err, result = .ok (.error err)

theorem addAll_nil (index : Index) :
    index.addAll (([] : List IndexEntry).map entryRecord) = .ok index := rfl

theorem probeResult_nil_false {index : Index} {endOff : ℤ} {err : Error} :
    ProbeResult sect crc index endOff ([],false) (.ok (.error err)) := by
  refine ⟨fun fault h => ?_,fun _ _ h => ?_,fun _ _ _ => ⟨err,rfl⟩⟩
  · rw [addAll_nil] at h
    cases h
  · cases h

theorem probeResult_nil_true {index : Index} {endOff : ℤ} :
    ProbeResult sect crc index endOff ([],true)
      (.ok (if crc32 sect ≠ crc then .error errInvalidIndex else .ok (index,endOff))) := by
  refine ⟨fun fault h => ?_,fun index' h _ hc => ?_,fun _ _ hc => ⟨errInvalidIndex,?_⟩⟩
  · rw [addAll_nil] at h
    cases h
  · rw [addAll_nil] at h
    cases h
    rw [if_neg (not_not.mpr hc)]
    rfl
  · rw [if_pos fun h => hc ⟨rfl,h⟩]

theorem entriesEnd_cons (endOff : ℤ) (entry : IndexEntry) (es : List IndexEntry) :
    entriesEnd endOff (entry::es) =
      entriesEnd (Writer.moveEnd endOff (i64 entry.offset) (i64 entry.length)) es := by
  rw [entriesEnd,List.foldl_cons,entriesEnd]

/-- An entry that is indexed, and then the rest of the section. -/
theorem probeResult_cons {index index' : Index} {endOff : ℤ} {entry : IndexEntry}
    {parsed : List IndexEntry × Bool} {result : Exec (Except Error (Index × ℤ))}
    (hadd : index.add (entryRecord entry).offset (entryRecord entry).length
      (entryRecord entry).value = .ok index')
    (h : ProbeResult sect crc index'
      (Writer.moveEnd endOff (i64 entry.offset) (i64 entry.length)) parsed result) :
    ProbeResult sect crc index endOff (entry::parsed.1,parsed.2) result := by
  have hall : index.addAll ((entry::parsed.1).map entryRecord) =
      index'.addAll (parsed.1.map entryRecord) := by
    rw [List.map_cons,ExtentRangeMap.addAll,List.foldlM_cons,hadd]
    rfl
  refine ⟨fun fault ha => h.fault fault (hall ▸ ha),fun index'' ha hp hc => ?_,
    fun index'' ha hc => h.reject index'' (hall ▸ ha) hc⟩
  rw [entriesEnd_cons]
  exact h.accept index'' (hall ▸ ha) hp hc

/-- An entry that makes the index panic. -/
theorem probeResult_fault {index : Index} {endOff : ℤ} {entry : IndexEntry} {fault : Fault}
    (parsed : List IndexEntry × Bool) (hadd : index.add (entryRecord entry).offset
      (entryRecord entry).length (entryRecord entry).value = .error fault) :
    ProbeResult sect crc index endOff (entry::parsed.1,parsed.2) (.error fault) := by
  have hall : index.addAll ((entry::parsed.1).map entryRecord) = .error fault := by
    rw [List.map_cons,ExtentRangeMap.addAll,List.foldlM_cons,hadd]
    rfl
  refine ⟨fun fault' ha => ?_,fun index'' ha => ?_,fun index'' ha => ?_⟩
  all_goals
    rw [hall] at ha
    cases ha
  rfl

theorem run_indexBody (fuel : ℕ) (rest : List UInt8) (index : Index) (endOff : ℤ)
    (hfuel : rest.length < fuel) : ProbeResult sect crc index endOff (indexEntries codec fuel rest)
      (run (indexBody codec sect crc) fuel (rest,index,endOff)) := by
  induction fuel generalizing rest index endOff with
  | zero => omega
  | succ fuel ih =>
    rw [indexEntries]
    cases hu : readUvarint rest with
    | error e =>
      cases e with
      | eof =>
        have hbody : indexBody codec sect crc (rest,index,endOff) = .ok (.inr
            (if crc32 sect ≠ crc then .error errInvalidIndex else .ok (index,endOff))) := by
          simp only [indexBody,hu]
        rw [run_done hbody]
        exact probeResult_nil_true
      | unexpectedEOF =>
        have hbody : indexBody codec sect crc (rest,index,endOff) =
            .ok (.inr (.error .unexpectedEOF)) := by simp only [indexBody,hu]
        rw [run_done hbody]
        exact probeResult_nil_false
      | overflow =>
        have hbody : indexBody codec sect crc (rest,index,endOff) =
            .ok (.inr (.error .overflow)) := by simp only [indexBody,hu]
        rw [run_done hbody]
        exact probeResult_nil_false
    | ok out =>
      obtain ⟨n,rest'⟩ := out
      have hshort := readUvarint_shorter hu
      have hbuf : bufSize < 2^63 := by unfold bufSize; omega
      by_cases hbad : bufSize < n ∨ rest'.length < n
      · -- the size of the entry is refused, whichever check does it
        obtain ⟨err,hbody⟩ : ∃ err, indexBody codec sect crc (rest,index,endOff) =
            .ok (.inr (.error err)) := by
          simp only [indexBody,hu]
          by_cases hneg : 2^63 ≤ n
          · exact ⟨_,by rw [if_pos hneg]⟩
          · rw [if_neg hneg]
            by_cases hn : bufSize < n
            · exact ⟨.bufferFull,by simp [peek,hn]⟩
            · rw [peek_of_lt (by omega) (by omega)]
              exact ⟨_,rfl⟩
        rw [run_done hbody]
        simp only [if_pos hbad]
        exact probeResult_nil_false
      · have hpeek : peek rest' n = (rest'.take n,none) := peek_of_le (by omega) (by omega)
        have hneg : ¬2^63 ≤ n := by omega
        simp only [if_neg hbad]
        cases hun : codec.unmarshalEntry (rest'.take n) with
        | none =>
          have hbody : indexBody codec sect crc (rest,index,endOff) =
              .ok (.inr (.error (.new "proto: cannot parse"))) := by
            simp only [indexBody,hu,if_neg hneg,hpeek,hun]
          rw [run_done hbody]
          exact probeResult_nil_false
        | some entry =>
          by_cases ht : entry.type = .write
          · have hbody : indexBody codec sect crc (rest,index,endOff) =
                (index.add (entryRecord entry).offset (entryRecord entry).length
                  (entryRecord entry).value).bind fun index' => .ok (.inl (rest'.drop n,index',
                    Writer.moveEnd endOff (i64 entry.offset) (i64 entry.length))) := by
              simp only [indexBody,hu,if_neg hneg,hpeek,hun,ht,entryRecord,bind]
            simp only [if_pos ht]
            cases hadd : index.add (entryRecord entry).offset (entryRecord entry).length
                (entryRecord entry).value with
            | error fault =>
              rw [hadd] at hbody
              rw [run_fault hbody]
              exact probeResult_fault _ hadd
            | ok index' =>
              rw [hadd] at hbody
              rw [run_next hbody]
              exact probeResult_cons hadd
                (ih _ index' _ (by rw [List.length_drop]; omega))
          · have hbody : indexBody codec sect crc (rest,index,endOff) =
                .ok (.inr (.error errInvalidIndex)) := by
              cases hty : entry.type with
              | write => exact absurd hty ht
              | invalid => simp only [indexBody,hu,if_neg hneg,hpeek,hun,hty]
              | trim => simp only [indexBody,hu,if_neg hneg,hpeek,hun,hty]
              | unknown k => simp only [indexBody,hu,if_neg hneg,hpeek,hun,hty]
            simp only [if_neg ht]
            rw [run_done hbody]
            exact probeResult_nil_false

end Probe

/-- The entries that the probe of the last bytes decodes, and whether it accepts them. -/
def footerEntries (codec : Codec) (bytes : List UInt8) : List IndexEntry × Bool :=
  match trailer bytes with
  | none => ([],false)
  | some (sect,crc) =>
    ((indexEntries codec (sect.length+1) sect).1,
      (indexEntries codec (sect.length+1) sect).2 && crc32 sect == crc)

/-- The decoded entries can all be added to an index. -/
def AddsEntries (es : List IndexEntry) : Prop :=
  ∃ index : Index, ExtentRangeMap.empty.addAll (es.map entryRecord) = .ok index

/-- Entries whose ranges do not wrap can be added. -/
theorem addsEntries_of_bounded {es : List IndexEntry} (h : ∀ e ∈ es,
    (entryRecord e).offset+(entryRecord e).length < 2^64) : AddsEntries es := by
  obtain ⟨m,hm,-,-⟩ := ExtentRangeMap.addAll_spec (es.map entryRecord) .empty
    ExtentRangeMap.empty_wf (by
      intro r hr
      obtain ⟨e,he,rfl⟩ := List.mem_map.mp hr
      exact h e he)
  exact ⟨m,hm⟩

section ReadIndex

variable (codec : Codec) {ra : List UInt8} (hsmall : ra.length < 2^63)
include hsmall

/-- The last sixteen bytes of a file that has them. -/
theorem readAt_footerEnd (hlen : 16 ≤ ra.length) :
    readAt ra (i64 ((ra.length : ℤ)-16)) 16 = (ra.drop (ra.length-16),none) := by
  have := readAt_of_le (show ra.length-16+16 ≤ ra.length by omega)
  rw [show ((ra.length-16 : ℕ) : ℤ) = (ra.length : ℤ)-16 by omega] at this
  rw [i64_of_range (by omega) (by omega),this,
    List.take_of_length_le (by rw [List.length_drop]; omega)]

theorem readIndex_of_trailer_none (h : trailer ra = none) :
    ∃ err, readIndex codec ra ra.length = .ok (.error err) := by
  by_cases hlen : 16 ≤ ra.length
  · by_cases hmagic : (ra.drop (ra.length-16)).drop 8 = footerMagic
    · have hbig : ra.length < leNat ((ra.drop (ra.length-16)).take 4)+16 := by
        by_contra hle
        have hc : 16 ≤ ra.length ∧ (ra.drop (ra.length-16)).drop 8 = footerMagic ∧
            leNat ((ra.drop (ra.length-16)).take 4)+16 ≤ ra.length := ⟨hlen,hmagic,by omega⟩
        simp only [trailer,if_pos hc] at h
        cases h
      have hlt : leNat ((ra.drop (ra.length-16)).take 4) < 256^4 :=
        (leNat_lt _).trans_le (Nat.pow_le_pow_right (by omega) (by simp))
      have hoff : i64 ((ra.length : ℤ)-16-leNat ((ra.drop (ra.length-16)).take 4)) < 0 := by
        rw [i64_of_range (by omega) (by omega)]
        omega
      refine ⟨errInvalidIndex,?_⟩
      rw [readIndex,readAt_footerEnd hsmall hlen]
      simp only [if_neg (not_not.mpr hmagic),if_pos hoff]
    · refine ⟨errInvalidIndex,?_⟩
      rw [readIndex,readAt_footerEnd hsmall hlen]
      simp only [if_pos hmagic]
  · have hread : readAt ra (i64 ((ra.length : ℤ)-16)) 16 = ([],some .negativeOffset) := by
      rw [i64_of_range (by omega) (by omega),readAt,if_pos (by omega)]
    exact ⟨.negativeOffset,by rw [readIndex,hread]⟩

theorem readIndex_of_trailer_some {sect : List UInt8} {crc : ℕ} (h : trailer ra = some (sect,crc)) :
    readIndex codec ra ra.length =
      run (indexBody codec sect crc) (sect.length+1) (sect,.empty,0) := by
  by_cases hc : 16 ≤ ra.length ∧ (ra.drop (ra.length-16)).drop 8 = footerMagic ∧
      leNat ((ra.drop (ra.length-16)).take 4)+16 ≤ ra.length
  · simp only [trailer,if_pos hc,Option.some.injEq,Prod.mk.injEq] at h
    obtain ⟨hlen,hmagic,hsize⟩ := hc
    have hoff : i64 ((ra.length : ℤ)-16-leNat ((ra.drop (ra.length-16)).take 4)) =
        ((ra.length-16-leNat ((ra.drop (ra.length-16)).take 4) : ℕ) : ℤ) := by
      rw [i64_of_range (by omega) (by omega)]
      omega
    rw [readIndex,readAt_footerEnd hsmall hlen]
    simp only [if_neg (not_not.mpr hmagic),hoff,Int.toNat_natCast]
    rw [if_neg (by omega),h.1,h.2]
  · simp only [trailer,if_neg hc] at h
    cases h

/-- The probe of a whole file in terms of what its last bytes decode to. -/
theorem readIndex_probe : (∀ fault : Fault, ExtentRangeMap.empty.addAll
      ((footerEntries codec ra).1.map entryRecord) = .error fault →
        readIndex codec ra ra.length = .error fault) ∧
    (∀ index, ExtentRangeMap.empty.addAll ((footerEntries codec ra).1.map entryRecord) = .ok index →
      (footerEntries codec ra).2 = true → readIndex codec ra ra.length =
        .ok (.ok (index,entriesEnd 0 (footerEntries codec ra).1))) ∧
    (AddsEntries (footerEntries codec ra).1 → (footerEntries codec ra).2 = false →
      ∃ err, readIndex codec ra ra.length = .ok (.error err)) := by
  cases ht : trailer ra with
  | none =>
    have hfooter : footerEntries codec ra = ([],false) := by rw [footerEntries,ht]
    rw [hfooter]
    refine ⟨fun fault h => ?_,fun index _ h => ?_,fun _ _ =>
      readIndex_of_trailer_none codec hsmall ht⟩
    · rw [addAll_nil] at h
      cases h
    · cases h
  | some st =>
    obtain ⟨sect,crc⟩ := st
    have hfooter : footerEntries codec ra = ((indexEntries codec (sect.length+1) sect).1,
        (indexEntries codec (sect.length+1) sect).2 && crc32 sect == crc) := by
      rw [footerEntries,ht]
    have hrun : ProbeResult sect crc .empty 0 _ _ :=
      run_indexBody codec (sect.length+1) sect .empty 0 (by omega)
    rw [hfooter,readIndex_of_trailer_some codec hsmall ht]
    refine ⟨hrun.fault,fun index ha h => ?_,fun ⟨index,ha⟩ h => ?_⟩
    · simp only [Bool.and_eq_true,beq_iff_eq] at h
      exact hrun.accept index ha h.1 h.2
    · simp only [Bool.and_eq_false_imp,beq_eq_false_iff_ne] at h
      exact hrun.reject index ha fun hc => h hc.1 hc.2

/-- The footer of a file is not taken just if what is decoded can be indexed and is refused. -/
theorem footerNotTaken_iff (hpos : 0 < ra.length) : FooterNotTaken codec ra ra.length ↔
    AddsEntries (footerEntries codec ra).1 ∧ (footerEntries codec ra).2 = false := by
  obtain ⟨hfault,haccept,hreject⟩ := readIndex_probe codec hsmall
  constructor
  · rintro (h | ⟨err,herr⟩)
    · omega
    · cases hadd : ExtentRangeMap.empty.addAll ((footerEntries codec ra).1.map entryRecord) with
      | error fault =>
        rw [hfault fault hadd] at herr
        cases herr
      | ok index =>
        refine ⟨⟨index,hadd⟩,Bool.eq_false_iff.mpr fun h => ?_⟩
        rw [haccept index hadd h] at herr
        cases herr
  · rintro ⟨ha,hr⟩
    exact .inr (hreject ha hr)

end ReadIndex

/-- An unclosed log is opened with every write in it just if its last bytes, which are the
payload of the last writes, do not pass for a footer: what they decode to can be indexed and
is then refused. -/
theorem newReader_of_unclosed_iff {codec : Codec} {rf : Option ℕ} {ws : List Write} {w : Writer}
    {f : File} (h : Written codec rf ws w f) :
    (FooterNotTaken codec f.bytes f.bytes.length ∧ ∃ r, newReader codec f.bytes f.bytes.length =
        .ok (r,if ws = [] then some .unexpectedEOF else none) ∧ Serves r ws) ↔
      AddsEntries (footerEntries codec f.bytes).1 ∧ (footerEntries codec f.bytes).2 = false := by
  rcases h.logged with ⟨rfl,rfl,rfl⟩ | ⟨hne,hl⟩
  · exact iff_of_true ⟨.inl le_rfl,_,rfl,serves_empty _ File.empty.small⟩
      ⟨⟨.empty,rfl⟩,rfl⟩
  · have hfile : f.bytes = logBytes codec ws++[] := hl.file
    have hsmall := f.small
    have hpos : 0 < f.bytes.length := by
      rw [hfile,logBytes,List.append_nil,List.length_append,headerBytes_length]
      omega
    rw [← footerNotTaken_iff codec hsmall hpos,if_neg hne]
    refine ⟨fun h => h.1,fun hf => ⟨hf,?_⟩⟩
    rw [hfile] at hf hsmall ⊢
    exact ⟨_,newReader_scan ends_nil (by simpa using hsmall) hl.index hf,hl.index.serves hsmall⟩

theorem newReader_of_plain_payload : ∃ w f, Written wireCodec none [.byte 0 1] w f ∧
    AddsEntries (footerEntries wireCodec f.bytes).1 ∧ (footerEntries wireCodec f.bytes).2 = false ∧
    ∃ r, newReader wireCodec f.bytes f.bytes.length = .ok (r,none) ∧ Serves r [.byte 0 1] := by
  obtain ⟨w,f,hw⟩ := exists_written wireCodec none [.byte 0 1] (by decide +kernel)
  have hfile : f.bytes = logBytes wireCodec [.byte 0 1] := by
    obtain ⟨h,-⟩ | ⟨-,hl⟩ := hw.logged
    · cases h
    · simpa using hl.file
  have hnone : footerEntries wireCodec f.bytes = ([],false) := by
    rw [hfile]
    decide +kernel
  have hadds : AddsEntries (footerEntries wireCodec f.bytes).1 := by
    rw [hnone]
    exact ⟨.empty,rfl⟩
  have hrefused : (footerEntries wireCodec f.bytes).2 = false := by rw [hnone]
  obtain ⟨-,r,hr,hserves⟩ := (newReader_of_unclosed_iff hw).mpr ⟨hadds,hrefused⟩
  exact ⟨w,f,hw,hadds,hrefused,r,hr,hserves⟩

/-- Eight zero bytes and the magic of a footer, written by a client at offset 0. -/
def footerLike : Write := ⟨0,[0,0,0,0,0,0,0,0]++footerMagic,by decide,by decide,by decide⟩

/-- That payload passes for the footer of an empty index, and the write is not served. -/
theorem newReader_takes_payload_for_footer : ∃ w f, Written wireCodec none [footerLike] w f ∧
    newReader wireCodec f.bytes f.bytes.length = .ok (⟨f.bytes,0,.empty⟩,none) ∧
    (⟨f.bytes,0,.empty⟩ : Reader).readAt 1 0 = .ok ([],some .eof) := by
  obtain ⟨w,f,hw⟩ := exists_written wireCodec none [footerLike] (by decide +kernel)
  have hfile : f.bytes = logBytes wireCodec [footerLike] := by
    obtain ⟨h,-⟩ | ⟨-,hl⟩ := hw.logged
    · cases h
    · simpa using hl.file
  have hfooter : footerEntries wireCodec f.bytes = ([],true) := by
    rw [hfile]
    decide +kernel
  have hindex : readIndex wireCodec f.bytes f.bytes.length = .ok (.ok (.empty,0)) := by
    have := (readIndex_probe wireCodec f.small).2.1 .empty (by rw [hfooter]; rfl) (by rw [hfooter])
    rw [hfooter] at this
    exact this
  have hhead : readHeader wireCodec f.bytes =
      .ok ((headerBytes wireCodec).length,entriesBytes [footerLike]) := by
    rw [hfile,logBytes,readHeader_headerBytes]
  have hpos : (f.bytes.length : ℤ) > 0 := by
    rw [hfile]
    decide +kernel
  refine ⟨w,f,hw,?_,?_⟩
  · unfold newReader
    rw [hhead]
    simp only [if_pos hpos,hindex,bind,Except.bind]
  · exact (serves_empty f.bytes f.small).readAt 1 0 le_rfl (by decide)

/-- A closed log whose bytes after the footer entry are replaced by bytes that are refused as
a footer is opened as by the scan just if the entries decoded before the refusal can be added
to an index. -/
theorem newReader_of_bad_footer_iff {codec : Codec} {rf : Option ℕ} {ws : List Write}
    {w w' : Writer} {f f' : File} {fault : Option ℕ} (h : Written codec rf ws w f) (hne : ws ≠ [])
    (hclose : w.closeWriter codec f fault = (w',f',none)) {junk bytes : List UInt8}
    (hbytes : bytes = f'.bytes.take (f.bytes.length+8)++junk) (hsmall : bytes.length < 2^63)
    (hrefused : (footerEntries codec bytes).2 = false) :
    (∃ r, newReader codec bytes bytes.length = .ok (r,none) ∧
        newReader codec bytes 0 = .ok (r,none) ∧ Serves r ws) ↔
      AddsEntries (footerEntries codec bytes).1 := by
  obtain ⟨h,-⟩ | ⟨-,hl⟩ := h.logged
  · exact absurd h hne
  have htake : bytes = logBytes codec ws++(footerEntry.bytes++junk) := by
    have hfile : f.bytes = logBytes codec ws := by simpa using hl.file
    have hlen : footerEntry.bytes.length = 8 := by simp
    rw [hbytes,hl.closeWriter hclose,hfile,← List.append_assoc,List.take_left' (by
      rw [List.length_append,hlen]),List.append_assoc]
  have hpos : 0 < bytes.length := by
    rw [htake,logBytes,List.length_append,List.length_append,headerBytes_length]
    omega
  have hlen : (logBytes codec ws).length < 2^63 := by
    rw [htake,List.length_append] at hsmall
    omega
  constructor
  · rintro ⟨r,hr,-,-⟩
    cases hadd : ExtentRangeMap.empty.addAll ((footerEntries codec bytes).1.map entryRecord) with
    | ok index => exact ⟨index,hadd⟩
    | error fault =>
      -- the panic of the index is the panic of the open
      have hindex := (readIndex_probe codec hsmall).1 fault hadd
      have hhead : readHeader codec bytes = .ok ((headerBytes codec).length,
          entriesBytes ws++(footerEntry.bytes++junk)) := by
        rw [htake,logBytes,List.append_assoc,readHeader_headerBytes]
      have hsize : (bytes.length : ℤ) > 0 := by omega
      unfold newReader at hr
      rw [hhead] at hr
      simp only [if_pos hsize,hindex,bind,Except.bind] at hr
      cases hr
  · intro ha
    have hf := (footerNotTaken_iff codec hsmall hpos).mpr ⟨ha,hrefused⟩
    rw [htake] at hf hsmall ⊢
    exact ⟨_,newReader_scan (ends_footer junk) hlen hl.index hf,
      newReader_scan (ends_footer junk) hlen hl.index (.inl le_rfl),hl.index.serves hsmall⟩

/-- A close succeeds on a device that does not fail if the file can hold the footer. -/
theorem Logged.exists_closed {codec : Codec} {w : Writer} {f : File} {ws : List Write}
    (h : Logged codec w f ws [])
    (hlen : f.bytes.length+(8+(w.footerBytes codec).length) < 2^63) :
    ∃ w' f', w.closeWriter codec f none = (w',f',none) := by
  have hoff : w.offset ≠ 0 := by
    rw [h.offset,logBytes,List.length_append,headerBytes_length]
    omega
  have hfoot : (footerEntry.bytes++w.footerBytes codec).length = 8+(w.footerBytes codec).length := by
    simp
  have hf : f.fails (footerEntry.bytes++w.footerBytes codec).length none = false :=
    File.fails_none (by rw [hfoot]; omega)
  refine ⟨{ w with isOpen := false },f.grow (footerEntry.bytes++w.footerBytes codec) none,?_⟩
  rw [Writer.closeWriter,if_pos h.isOpen,if_neg hoff]
  simp only [File.write,hf]
  rfl

/-- Writes on a device that does not fail can be logged and closed, if the file holds them. -/
theorem exists_closed (ws : List Write) (hne : ws ≠ []) {n : ℕ}
    (hfoot : (ExtentRangeMap.empty.addAll (recordsFrom (headerBytes wireCodec).length ws)).map
      (fun index => ({ Writer.new none with index := index }.footerBytes wireCodec).length) = .ok n)
    (hlen : (logBytes wireCodec ws).length+(8+n) < 2^63) : ∃ w w' f f',
      Written wireCodec none ws w f ∧ Logged wireCodec w f ws [] ∧
      w.closeWriter wireCodec f none = (w',f',none) ∧ (w.footerBytes wireCodec).length = n := by
  obtain ⟨w,f,hw⟩ := exists_written wireCodec none ws (by omega)
  obtain ⟨h,-⟩ | ⟨-,hl⟩ := hw.logged
  · exact absurd h hne
  have hn : (w.footerBytes wireCodec).length = n := by
    rw [hl.index] at hfoot
    exact Except.ok.inj hfoot
  obtain ⟨w',f',hc⟩ := hl.exists_closed (by rw [hl.file,List.append_nil,hn]; exact hlen)
  exact ⟨w,w',f,f',hw,hl,hc,hn⟩

/-- The log of one byte, closed. -/
theorem exists_closed_byte : ∃ w w' f f', Written wireCodec none [.byte 0 1] w f ∧
    w.closeWriter wireCodec f none = (w',f',none) ∧
    f'.bytes.take (f.bytes.length+8) = logBytes wireCodec [.byte 0 1]++footerEntry.bytes := by
  obtain ⟨w,w',f,f',hw,hl,hc,-⟩ := exists_closed [.byte 0 1] (by simp) (n := 23)
    (by decide +kernel) (by decide +kernel)
  have h8 : footerEntry.bytes.length = 8 := by simp
  refine ⟨w,w',f,f',hw,hc,?_⟩
  rw [hl.closeWriter hc,hl.file,List.append_nil,← List.append_assoc,
    List.take_left' (by rw [List.length_append,h8])]

/-- A footer with these entries and a wrong checksum. -/
def brokenFooter (es : List IndexEntry) : List UInt8 :=
  let sect := es.flatMap (Writer.indexChunk wireCodec)
  sect++leBytes 4 sect.length++leBytes 4 0++footerMagic

/-- Entries for the byte that is in the log, at another place, and for bytes that are not. -/
def strayEntries : List IndexEntry := [⟨.write,0,1,5⟩,⟨.write,7,2,9⟩]

/-- The entries are loaded before the checksum refuses the footer, and then dropped. -/
theorem newReader_of_stray_footer : ∃ bytes, bytes =
      logBytes wireCodec [.byte 0 1]++footerEntry.bytes++brokenFooter strayEntries ∧
    footerEntries wireCodec bytes = (strayEntries,false) ∧ ∃ r,
      newReader wireCodec bytes bytes.length = .ok (r,none) ∧
      newReader wireCodec bytes 0 = .ok (r,none) ∧ Serves r [.byte 0 1] := by
  obtain ⟨w,w',f,f',hw,hc,htake⟩ := exists_closed_byte
  have hentries : footerEntries wireCodec (logBytes wireCodec [.byte 0 1]++footerEntry.bytes++
      brokenFooter strayEntries) = (strayEntries,false) := by decide +kernel
  refine ⟨_,rfl,hentries,(newReader_of_bad_footer_iff hw (by decide) hc
    (show _ = f'.bytes.take (f.bytes.length+8)++brokenFooter strayEntries by rw [htake])
    (by decide +kernel) (by rw [hentries])).mpr ?_⟩
  rw [hentries]
  exact addsEntries_of_bounded (by decide +kernel)

/-- A range that ends beyond the last `uint64`. -/
def wrappingEntry : IndexEntry := ⟨.write,2^63+5,2^63,0⟩

/-- A footer with the same wrapping entry twice and a wrong checksum. -/
def wrappingFooter : List UInt8 := brokenFooter [wrappingEntry,wrappingEntry]

/-- The checksum is wrong, but the second entry makes the index panic before it is looked at. -/
theorem newReader_panics_on_wrapping_footer : ∃ w w' f f' bytes,
    Written wireCodec none [.byte 0 1] w f ∧ w.closeWriter wireCodec f none = (w',f',none) ∧
    bytes = f'.bytes.take (f.bytes.length+8)++wrappingFooter ∧
    (footerEntries wireCodec bytes).2 = false ∧
    newReader wireCodec bytes bytes.length = .error (.panic "unexpected old entry") := by
  obtain ⟨w,w',f,f',hw,hc,htake⟩ := exists_closed_byte
  generalize hb : logBytes wireCodec [.byte 0 1]++footerEntry.bytes++wrappingFooter = bytes
  have hentries : footerEntries wireCodec bytes = ([wrappingEntry,wrappingEntry],false) := by
    rw [← hb]
    decide +kernel
  have hadd : (ExtentRangeMap.empty : Index).addAll
      ((footerEntries wireCodec bytes).1.map entryRecord) = .error (.panic "unexpected old entry") := by
    have hrec : entryRecord wrappingEntry =
        ⟨⟨2^63+5,2^63⟩,⟨0,5-2^63,-2^63,false⟩⟩ := by
      unfold entryRecord wrappingEntry i64 toU64
      norm_num
      omega
    rw [hentries,List.map_cons,List.map_cons,List.map_nil,hrec]
    exact error_of_map (f := fun _ => ()) (by decide +kernel)
  have hindex := (readIndex_probe wireCodec (show bytes.length < 2^63 by
    rw [← hb]; decide +kernel)).1 _ hadd
  have hhead : readHeader wireCodec bytes = .ok ((headerBytes wireCodec).length,
      entriesBytes [.byte 0 1]++(footerEntry.bytes++wrappingFooter)) := by
    rw [← hb,logBytes,List.append_assoc,List.append_assoc,readHeader_headerBytes]
  have hsize : (bytes.length : ℤ) > 0 := by
    rw [← hb]
    decide +kernel
  refine ⟨w,w',f,f',bytes,hw,hc,by rw [htake,hb],by rw [hentries],?_⟩
  unfold newReader
  rw [hhead]
  simp only [if_pos hsize,hindex,bind,Except.bind]

end Wal
end Logblock
