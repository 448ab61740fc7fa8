import Logblock.WalReader

/-! The scan over the bytes that a writer leaves. Every whole entry adds the record the
writer added, and the bytes after the last whole entry decide the error. -/
namespace Logblock
namespace Wal

open Bytes ByteStream Loop Runs

theorem run_copyBody (fuel c : ℕ) (rest : List UInt8) (crc : ℕ) (hfuel : c < fuel)
    (hc : c ≤ rest.length) : run copyBody fuel (c,rest,crc) =
      .ok (.ok (rest.drop c,crcUpdate crc (rest.take c))) := by
  induction fuel generalizing c rest crc with
  | zero => omega
  | succ fuel ih =>
    by_cases h0 : c = 0
    · have hbody : copyBody (c,rest,crc) = .ok (.inr (.ok (rest,crc))) := by simp [copyBody,h0]
      rw [run_done hbody,h0]
      rfl
    · have hp : peek rest (min c bufSize) = (rest.take (min c bufSize),none) :=
        peek_of_le (by omega) (by omega)
      have hbody : copyBody (c,rest,crc) = .ok (.inl (c-min c bufSize,
          rest.drop (min c bufSize),crcUpdate crc (rest.take (min c bufSize)))) := by
        simp only [copyBody,if_neg h0,hp]
      have hb : 0 < bufSize := by unfold bufSize; omega
      rw [run_next hbody,ih _ _ _ (by omega) (by rw [List.length_drop]; omega),List.drop_drop,
        ← crcUpdate_append,show min c bufSize+(c-min c bufSize) = c by omega]
      congr 5
      rw [← List.take_add,show min c bufSize+(c-min c bufSize) = c by omega]

/-- An entry that the file cuts off. -/
theorem run_copyBody_short (fuel c : ℕ) (rest : List UInt8) (crc : ℕ) (hfuel : c < fuel)
    (hc : rest.length < c) : run copyBody fuel (c,rest,crc) = .ok (.error .unexpectedEOF) := by
  induction fuel generalizing c rest crc with
  | zero => omega
  | succ fuel ih =>
    have hb : 0 < bufSize := by unfold bufSize; omega
    by_cases hs : rest.length < min c bufSize
    · have hbody : copyBody (c,rest,crc) = .ok (.inr (.error .unexpectedEOF)) := by
        simp only [copyBody,if_neg (show c ≠ 0 by omega),peek_of_lt (min_le_right c bufSize) hs]
      rw [run_done hbody]
    · have hp := peek_of_le (min_le_right c bufSize) (show min c bufSize ≤ rest.length by omega)
      have hbody : copyBody (c,rest,crc) = .ok (.inl (c-min c bufSize,
          rest.drop (min c bufSize),crcUpdate crc (rest.take (min c bufSize)))) := by
        simp only [copyBody,if_neg (show c ≠ 0 by omega),hp]
      rw [run_next hbody]
      exact ih _ _ _ (by omega) (by rw [List.length_drop]; omega)

section Header

variable (codec : Codec)

theorem headerBytes_length :
    (headerBytes codec).length = 12+(codec.marshalHeader header).length := by
  simp [headerBytes,headerMagic]
  omega

theorem readHeader_headerBytes (tail : List UInt8) :
    readHeader codec (headerBytes codec++tail) = .ok ((headerBytes codec).length,tail) := by
  have hlen := codec.header_length
  have hrest : headerBytes codec++tail = headerMagic++(leBytes 4 (codec.marshalHeader header).length++
      (codec.marshalHeader header++tail)) := by simp [headerBytes]
  have hdrop : (headerBytes codec++tail).drop 8 = leBytes 4 (codec.marshalHeader header).length++
      (codec.marshalHeader header++tail) := by rw [hrest]; exact List.drop_left' rfl
  have hdrop' : (headerBytes codec++tail).drop 12 = codec.marshalHeader header++tail := by
    rw [show 12 = 8+4 by rfl,← List.drop_drop,hdrop]
    exact List.drop_left' (length_leBytes 4 _)
  have hsize : leNat (leBytes 4 (codec.marshalHeader header).length) =
      (codec.marshalHeader header).length := leNat_leBytes (by omega)
  unfold readHeader
  rw [hdrop,hdrop',show peek (headerBytes codec++tail) headerMagic.length = (headerMagic,none) by
    rw [hrest]; exact peek_append rfl (by decide) _]
  simp only [ne_eq,not_true_eq_false,if_false]
  rw [peek_append (length_leBytes 4 _) (by unfold bufSize; omega)]
  simp only [hsize]
  rw [peek_append rfl (by unfold bufSize; omega)]
  simp only [codec.header_roundTrip,headerBytes_length]
  rw [← headerBytes_length,List.drop_left' rfl]

theorem readHeader_short {k : ℕ} (hk : k < (headerBytes codec).length) :
    readHeader codec ((headerBytes codec).take k) = .error .eof := by
  have hlen := codec.header_length
  have hb := headerBytes_length codec
  have hklen : ((headerBytes codec).take k).length = k := by simp; omega
  have hmagic : headerMagic.length = 8 := rfl
  unfold readHeader
  by_cases h₁ : k < 8
  · rw [peek_of_lt (by decide) (by omega)]
  · have htake : ((headerBytes codec).take k).take headerMagic.length = headerMagic := by
      rw [List.take_take,min_eq_left (by omega),headerBytes,List.append_assoc]
      exact List.take_left' rfl
    rw [peek_of_le (by decide) (by omega),htake]
    simp only [ne_eq,not_true_eq_false,if_false]
    by_cases h₂ : k < 12
    · rw [peek_of_lt (by unfold bufSize; omega) (by rw [List.length_drop]; omega)]
    · have hsize : (((headerBytes codec).take k).drop 8).take 4 =
          leBytes 4 (codec.marshalHeader header).length := by
        rw [List.drop_take,List.take_take,min_eq_left (by omega),headerBytes,List.append_assoc,
          List.drop_left' hmagic,List.take_left' (length_leBytes 4 _)]
      rw [peek_of_le (by unfold bufSize; omega) (by rw [List.length_drop]; omega),hsize]
      simp only [leNat_leBytes (show (codec.marshalHeader header).length < 256^4 by omega)]
      rw [peek_of_lt (by unfold bufSize; omega) (by rw [List.length_drop]; omega)]

end Header

section Entry

variable (ra : List UInt8) (s : Scan)

theorem scanBody_nil (h : s.rest = []) : scanBody ra s = .ok (.inr (s.reader ra,none)) := by
  rw [scanBody,h,peek_of_lt (by decide) (by decide)]
  rfl

/-- The first eight bytes of an entry. -/
def entryHead (crc size : ℕ) : List UInt8 := leBytes 4 crc++(leBytes 3 size++[0])

theorem scanBody_head {crc size : ℕ} {rest : List UInt8} (h : s.rest = entryHead crc size++rest)
    (hsize : size < 2^24) : scanBody ra s = match peek rest 8 with
      | (_,some err) => .ok (.inr (s.reader ra,some err))
      | (buf,none) => scanPacket ra { s with rest := rest } (entryHead crc size)
        (some (i64 (leNat buf),size-entryBaseSize-8)) := by
  have hlen : (entryHead crc size).length = 8 := by simp [entryHead]
  have hdrop : (entryHead crc size).drop 4 = leBytes 3 size++[0] :=
    List.drop_left' (length_leBytes 4 crc)
  have hpacket : leNat (((entryHead crc size).drop 4).take 3) = size := by
    rw [hdrop,List.take_left' (length_leBytes 3 size),leNat_leBytes (by omega)]
  have htype : (entryHead crc size).getD 7 0 = EntryType.data.code := by
    simp [entryHead,EntryType.code]
  rw [scanBody,h,show entryBaseSize = 8 by rfl,peek_append hlen (by decide)]
  rcases hpeek : peek rest 8 with ⟨buf,err⟩
  cases err with
  | some err => simp only [htype,if_true,List.drop_left' hlen,hpeek]
  | none => simp only [htype,hpacket,if_true,List.drop_left' hlen,hpeek]

theorem packetSize_entryHead {crc size : ℕ} (hsize : size < 2^24) :
    leNat (((entryHead crc size).drop 4).take 3) = size := by
  rw [entryHead,List.drop_left' (length_leBytes 4 crc),List.take_left' (length_leBytes 3 size),
    leNat_leBytes (by omega)]

theorem crc_entryHead {crc size : ℕ} (hcrc : crc < 2^32) :
    leNat ((entryHead crc size).take 4) = crc := by
  rw [entryHead,List.take_left' (length_leBytes 4 crc),leNat_leBytes (by omega)]

/-- The loop over the body of an entry whose size is right. -/
theorem scanPacket_eq {crc size : ℕ} {body tail : List UInt8} (h : s.rest = body++tail)
    (hlen : body.length+8 = size) (hsize : size < 2^24) (data : Option (ℤ × ℤ)) :
    scanPacket ra s (entryHead crc size) data = indexPacket ra s (entryHead crc size) data tail
      (crcUpdate crcInit (leBytes 3 size++[0]++body)) := by
  have hdrop : (entryHead crc size).drop 4 = leBytes 3 size++[0] :=
    List.drop_left' (length_leBytes 4 crc)
  have hcopy : (size+2^32-entryBaseSize)%2^32 = body.length := by
    unfold entryBaseSize
    omega
  have hrun := run_copyBody (body.length+1) body.length s.rest
    (crcUpdate crcInit (leBytes 3 size++[0])) (by omega) (by rw [h,List.length_append]; omega)
  rw [h,List.take_left' rfl,List.drop_left' rfl,← crcUpdate_append,← h] at hrun
  unfold scanPacket
  simp only [packetSize_entryHead hsize,hcopy]
  rw [hdrop,hrun]
  rfl

theorem scanPacket_data {crc size : ℕ} {body tail : List UInt8} (h : s.rest = body++tail)
    (hlen : body.length+8 = size) (hsize : size < 2^24) (hcrc : crc < 2^32) (dOffset dLength : ℤ)
    (hsum : crc32 (leBytes 3 size++[0]++body) = crc) :
    scanPacket ra s (entryHead crc size) (some (dOffset,dLength)) =
      (s.index.add (toU64 dOffset) (toU64 dLength) ⟨i64 (s.logOff+16),dOffset,dLength,false⟩).bind
        fun index => .ok (.inl {
          rest := tail
          logOff := i64 (s.logOff+size)
          index := index
          endOff := Writer.moveEnd s.endOff dOffset dLength }) := by
  have hsum' : crcSum (crcUpdate crcInit (leBytes 3 size++[0]++body)) = crc := hsum
  rw [scanPacket_eq ra s h hlen hsize,indexPacket,crc_entryHead hcrc,hsum',
    if_neg (not_not.mpr rfl),packetSize_entryHead hsize]
  rfl

theorem entry_bytes (wr : Write) : wr.entry.bytes =
    entryHead (crc32 (dataPacket wr.off wr.data)) wr.entry.len++
      (leBytes 8 (toU64 wr.off)++wr.data) := by
  rw [Write.entry_len,Write.entry,dataEntry_bytes]
  simp [entryHead,dataPacket]

theorem scanBody_entry (wr : Write) (tail : List UInt8) (h : s.rest = wr.entry.bytes++tail) :
    scanBody ra s = (s.index.add wr.off wr.data.length
      ⟨i64 (s.logOff+16),wr.off,wr.data.length,false⟩).bind fun index => .ok (.inl {
        rest := tail
        logOff := i64 (s.logOff+wr.entry.len)
        index := index
        endOff := Writer.moveEnd s.endOff wr.off wr.data.length }) := by
  have hle := wr.entry_len_le
  have hlen := wr.entry_len
  have hoff := wr.off_lt
  have hend := wr.end_lt
  have hu : toU64 wr.off = wr.off := toU64_natCast (by omega)
  have hoffset : i64 (leNat (leBytes 8 (toU64 wr.off))) = wr.off := by
    rw [leNat_leBytes (by rw [hu]; omega),hu]
    exact i64_of_range (by omega) (by omega)
  have hlength : ((wr.entry.len : ℕ) : ℤ)-entryBaseSize-8 = wr.data.length := by
    unfold entryBaseSize
    omega
  rw [entry_bytes,List.append_assoc,List.append_assoc] at h
  rw [scanBody_head ra s h (by omega),peek_append (length_leBytes 8 _) (by unfold bufSize; omega)]
  simp only [hoffset,hlength]
  have hrest : ({ s with rest := leBytes 8 (toU64 wr.off)++(wr.data++tail) } : Scan).rest =
      (leBytes 8 (toU64 wr.off)++wr.data)++tail := by simp
  rw [scanPacket_data ra _ hrest (by simp; omega) (by omega) (crc32_lt _) _ _
    (by rw [dataPacket,hlen]; simp),hu,toU64_natCast (by omega)]

theorem scanPacket_short {crc size : ℕ} (hsize : size < 2^24) (h : s.rest.length+8 < size)
    (data : Option (ℤ × ℤ)) : scanPacket ra s (entryHead crc size) data =
      .ok (.inr (s.reader ra,some .unexpectedEOF)) := by
  have hcopy : (size+2^32-entryBaseSize)%2^32 = size-8 := by
    unfold entryBaseSize
    omega
  unfold scanPacket
  simp only [packetSize_entryHead hsize,hcopy]
  rw [run_copyBody_short _ _ _ _ (by omega) (by omega)]
  rfl

end Entry

/-- The scan stops at these bytes with this error. -/
def Ends (tail : List UInt8) (err : Option Error) : Prop :=
  ∀ ra s, s.rest = tail → scanBody ra s = .ok (.inr (s.reader ra,err))

theorem ends_nil : Ends [] none := fun ra s h => scanBody_nil ra s h

theorem ends_short {tail : List UInt8} (h₁ : 0 < tail.length) (h₂ : tail.length < 8) :
    Ends tail (some .unexpectedEOF) := by
  intro ra s h
  rw [scanBody,h,show entryBaseSize = 8 by rfl,peek_of_lt (by decide) h₂]
  simp only [if_neg h₁.ne']

/-- The error for an entry of which only `k` bytes are in the file. -/
def cutError (k : ℕ) : Error := if 8 ≤ k ∧ k < 16 then .eof else .unexpectedEOF

theorem ends_entry_take (wr : Write) {k : ℕ} (h₁ : 0 < k) (h₂ : k < wr.entry.len) :
    Ends (wr.entry.bytes.take k) (some (cutError k)) := by
  have hlen : (wr.entry.bytes.take k).length = k := by
    rw [List.length_take,LogEntry.length_bytes]
    omega
  by_cases h8 : k < 8
  · rw [cutError,if_neg (by omega)]
    exact ends_short (by omega) (by omega)
  intro ra s h
  have hle := wr.entry_len_le
  -- the head of the entry is whole, its body is cut
  have hhead : (entryHead (crc32 (dataPacket wr.off wr.data)) wr.entry.len).length = 8 := by
    simp [entryHead]
  rw [entry_bytes,List.take_append,hhead,List.take_of_length_le (by omega)] at h
  rw [scanBody_head ra s h (by omega)]
  have hrest : ((leBytes 8 (toU64 wr.off)++wr.data).take (k-8)).length = k-8 := by
    have := wr.entry_len
    simp
    omega
  by_cases h16 : k < 16
  · rw [peek_of_lt (by decide) (by omega),cutError,if_pos ⟨by omega,h16⟩]
  · rw [peek_of_le (by decide) (by omega),cutError,if_neg (by omega)]
    exact scanPacket_short ra _ (by omega) (by simp only; omega) _

theorem footerEntry_bytes : footerEntry.bytes =
    leBytes 4 (crc32 (leBytes 3 8++[2]))++(leBytes 3 8++[2]) := by
  simp [footerEntry,makeLogEntry,LogEntry.bytes,EntryType.code,entryBaseSize]

theorem ends_footer (tail : List UInt8) : Ends (footerEntry.bytes++tail) none := by
  intro ra s h
  have hlen : footerEntry.bytes.length = 8 := by simp
  have htype : footerEntry.bytes.getD 7 0 = EntryType.footer.code := by
    rw [footerEntry_bytes]
    simp [EntryType.code]
  rw [scanBody,h,show entryBaseSize = 8 by rfl,peek_append hlen (by decide)]
  simp only [htype]
  rfl

/-- The scan over whole entries comes to what follows them. -/
theorem run_scanBody (ra : List UInt8) (ws : List Write) (tail : List UInt8) (fuel pos : ℕ)
    (index index' : Index) (endOff : ℤ) (hpos : pos+(entriesBytes ws).length < 2^63)
    (hadd : index.addAll (recordsFrom pos ws) = .ok index') :
    run (scanBody ra) (ws.length+fuel) ⟨entriesBytes ws++tail,pos,index,endOff⟩ =
      run (scanBody ra) fuel ⟨tail,((pos+(entriesBytes ws).length : ℕ) : ℤ),index',
        (ws.map Op.write).foldl (fun e op => Writer.moveEnd e op.off op.length) endOff⟩ := by
  induction ws generalizing pos index endOff with
  | nil =>
    cases hadd
    simp
  | cons wr ws ih =>
    rw [entriesBytes_cons,List.length_append,LogEntry.length_bytes] at hpos
    have hwlen := wr.entry_len
    -- the record of the scan is the record of the writer
    have hrec : (⟨i64 ((pos : ℤ)+16),wr.off,wr.data.length,false⟩ : LogRecord) =
        (recordAt pos wr).value := by
      rw [i64_of_range (by omega) (by omega)]
      rfl
    rw [recordsFrom_cons,ExtentRangeMap.addAll,List.foldlM_cons] at hadd
    cases hone : index.add wr.off wr.data.length (recordAt pos wr).value with
    | error e =>
      have : (recordAt pos wr).offset = wr.off := rfl
      have : (recordAt pos wr).length = wr.data.length := rfl
      simp_all [bind,Except.bind]
    | ok index₁ =>
      have hrest : index₁.addAll (recordsFrom (pos+wr.entry.len) ws) = .ok index' := by
        have h₁ : (recordAt pos wr).offset = wr.off := rfl
        have h₂ : (recordAt pos wr).length = wr.data.length := rfl
        rw [h₁,h₂,hone] at hadd
        exact hadd
      have hbody := scanBody_entry ra ⟨entriesBytes (wr::ws)++tail,pos,index,endOff⟩ wr
        (entriesBytes ws++tail) (by simp)
      simp only [hrec,hone,Except.bind] at hbody
      have hcast : i64 ((pos : ℤ)+(wr.entry.len : ℕ)) = ((pos+wr.entry.len : ℕ) : ℤ) := by
        rw [i64_of_range (by omega) (by omega),Nat.cast_add]
      rw [List.length_cons,show ws.length+1+fuel = (ws.length+fuel)+1 by omega,run_next hbody,hcast,
        ih (pos+wr.entry.len) index₁ _ (by omega) hrest,List.map_cons,List.foldl_cons,
        entriesBytes_cons,List.length_append,LogEntry.length_bytes,add_assoc]
      rfl

/-- The footer of a closed log is not found. -/
def FooterNotTaken (codec : Codec) (ra : List UInt8) (size : ℤ) : Prop :=
  size ≤ 0 ∨ ∃ err, readIndex codec ra size = .ok (.error err)

theorem length_entriesBytes_ge (ws : List Write) : ws.length ≤ (entriesBytes ws).length := by
  induction ws with
  | nil => simp
  | cons wr ws ih =>
    have := wr.entry_len
    rw [entriesBytes_cons,List.length_append,LogEntry.length_bytes,List.length_cons]
    omega

/-- Opening a log comes to what follows its whole entries with their index. -/
theorem newReader_reaches {codec : Codec} {ws : List Write} {tail : List UInt8}
    (hlen : (logBytes codec ws).length < 2^63) {index : Index}
    (hindex : IndexOf codec ws index) {size : ℤ}
    (hfooter : FooterNotTaken codec (logBytes codec ws++tail) size) :
    ∃ fuel, newReader codec (logBytes codec ws++tail) size =
      run (scanBody (logBytes codec ws++tail)) (fuel+tail.length+1)
        ⟨tail,(logBytes codec ws).length,index,endOf ws⟩ := by
  have hhead : readHeader codec (logBytes codec ws++tail) =
      .ok ((headerBytes codec).length,entriesBytes ws++tail) := by
    rw [logBytes,List.append_assoc,readHeader_headerBytes]
  have hge := length_entriesBytes_ge ws
  have hfuel : (entriesBytes ws++tail).length+1 =
      ws.length+(((entriesBytes ws).length-ws.length+tail.length)+1) := by
    rw [List.length_append]
    omega
  rw [logBytes,List.length_append] at hlen
  have hrun := run_scanBody (logBytes codec ws++tail) ws tail
    (((entriesBytes ws).length-ws.length+tail.length)+1) (headerBytes codec).length .empty index 0
    hlen hindex
  rw [← hfuel,← List.length_append,← logBytes] at hrun
  refine ⟨_,Eq.trans ?_ hrun⟩
  unfold newReader
  rw [hhead]
  rcases hfooter with hsize | ⟨e,he⟩
  · simp only [if_neg (show ¬size > 0 by omega),bind,Except.bind]
  · by_cases hsize : size > 0
    · simp only [if_pos hsize,he,bind,Except.bind]
    · simp only [if_neg hsize,bind,Except.bind]

/-- A log is opened with the records of its whole entries. -/
theorem newReader_scan {codec : Codec} {ws : List Write} {tail : List UInt8} {err : Option Error}
    (htail : Ends tail err) (hlen : (logBytes codec ws).length < 2^63) {index : Index}
    (hindex : IndexOf codec ws index) {size : ℤ}
    (hfooter : FooterNotTaken codec (logBytes codec ws++tail) size) :
    newReader codec (logBytes codec ws++tail) size =
      .ok (⟨logBytes codec ws++tail,endOf ws,index⟩,err) := by
  obtain ⟨fuel,hreach⟩ := newReader_reaches hlen hindex hfooter
  rw [hreach,run_done (htail _ _ rfl)]
  rfl

end Wal
end Logblock
