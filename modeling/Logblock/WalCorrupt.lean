import Logblock.WalFooter

/-! Corrupted logs. The scan acts on the type and the size of an entry before it can know
that the checksum is wrong. -/
namespace Logblock
namespace Wal

open Bytes ByteStream Loop Runs

section Head

variable (tail : List UInt8)

/-- The checksum that an entry stores. -/
def storedCrc : ℕ := leNat (tail.take 4)

/-- The size that an entry declares. -/
def declaredSize : ℕ := leNat ((tail.drop 4).take 3)

/-- The type that an entry declares. -/
def storedType : UInt8 := tail.getD 7 0

/-- Where the scan takes an entry of a declared size to end. The subtraction is one of
`uint32`, so a size below that of a head wraps. -/
def scannedEnd (size : ℕ) : ℕ := 8+(size+2^32-entryBaseSize)%2^32

theorem scannedEnd_of_le {size : ℕ} (h₁ : 8 ≤ size) (h₂ : size < 2^24) : scannedEnd size = size := by
  unfold scannedEnd entryBaseSize
  omega

theorem scannedEnd_of_lt {size : ℕ} (h : size < 8) : scannedEnd size = 2^32+size := by
  unfold scannedEnd entryBaseSize
  omega

theorem declaredSize_lt : declaredSize tail < 2^24 :=
  (leNat_lt _).trans_le ((Nat.pow_le_pow_right (by omega) (by simp)).trans_eq
    (show 256^3 = 2^24 by norm_num))

theorem declaredSize_take : leNat (((tail.take 8).drop 4).take 3) = declaredSize tail := by
  rw [List.drop_take,List.take_take,declaredSize]
  rfl

/-- A pass over bytes that hold at least the head of an entry. -/
theorem scanBody_any {tail : List UInt8} (ra : List UInt8) (s : Scan) (h : s.rest = tail)
    (h8 : 8 ≤ tail.length) : scanBody ra s =
      if storedType tail = EntryType.data.code then
        match peek (tail.drop 8) 8 with
        | (_,some err) => .ok (.inr (s.reader ra,some err))
        | (buf,none) => scanPacket ra { s with rest := tail.drop 8 } (tail.take 8)
          (some (i64 (leNat buf),declaredSize tail-entryBaseSize-8))
      else if storedType tail = EntryType.trim.code then .error (.panic "Unsupported")
      else if storedType tail = EntryType.footer.code then .ok (.inr (s.reader ra,none))
      else scanPacket ra { s with rest := tail.drop 8 } (tail.take 8) none := by
  have htype : (tail.take 8).getD 7 0 = storedType tail := by
    simp [storedType]
  have hsize := declaredSize_take tail
  rw [scanBody,h,show entryBaseSize = 8 by rfl,peek_of_le (by decide) h8]
  rcases hpeek : peek (tail.drop 8) 8 with ⟨buf,err⟩
  cases err with
  | some err => simp only [htype,hpeek]
  | none => simp only [htype,hsize,hpeek]

/-- The loop over the body of an entry, whatever its head says. -/
theorem scanPacket_of_le {ra entry : List UInt8} {s : Scan} {c : ℕ} (data : Option (ℤ × ℤ))
    (hc : (leNat ((entry.drop 4).take 3)+2^32-entryBaseSize)%2^32 = c) (hle : c ≤ s.rest.length) :
    scanPacket ra s entry data = indexPacket ra s entry data (s.rest.drop c)
      (crcUpdate (crcUpdate crcInit (entry.drop 4)) (s.rest.take c)) := by
  have hrun := run_copyBody (c+1) c s.rest (crcUpdate crcInit (entry.drop 4)) (by omega) hle
  unfold scanPacket
  simp only [hc]
  rw [hrun]
  rfl

theorem scanPacket_of_lt {ra entry : List UInt8} {s : Scan} {c : ℕ} (data : Option (ℤ × ℤ))
    (hc : (leNat ((entry.drop 4).take 3)+2^32-entryBaseSize)%2^32 = c) (hlt : s.rest.length < c) :
    scanPacket ra s entry data = .ok (.inr (s.reader ra,some .unexpectedEOF)) := by
  have hrun := run_copyBody_short (c+1) c s.rest (crcUpdate crcInit (entry.drop 4)) (by omega) hlt
  unfold scanPacket
  simp only [hc]
  rw [hrun]
  rfl

theorem indexPacket_bad {ra entry rest : List UInt8} {s : Scan} {crc : ℕ} (data : Option (ℤ × ℤ))
    (h : crcSum crc ≠ leNat (entry.take 4)) :
    indexPacket ra s entry data rest crc = .ok (.inr (s.reader ra,some errCorruptedLog)) := by
  unfold indexPacket
  simp only [if_pos h]

/-- A pass over a body that the file holds in full comes to its checksum. -/
theorem scanPacket_sum {tail : List UInt8} (h8 : 8 ≤ tail.length)
    (hle : scannedEnd (declaredSize tail) ≤ tail.length) : ∃ crc,
      crcSum crc = crc32 ((tail.take (scannedEnd (declaredSize tail))).drop 4) ∧
      ∀ ra (s : Scan) data, scanPacket ra { s with rest := tail.drop 8 } (tail.take 8) data =
        indexPacket ra { s with rest := tail.drop 8 } (tail.take 8) data
          (tail.drop (scannedEnd (declaredSize tail))) crc := by
  generalize hc : (declaredSize tail+2^32-entryBaseSize)%2^32 = c
  have hend : scannedEnd (declaredSize tail) = 8+c := by rw [scannedEnd,hc]
  have hdrop : (tail.drop 8).length = tail.length-8 := List.length_drop
  rw [hend] at hle ⊢
  refine ⟨crcUpdate (crcUpdate crcInit ((tail.take 8).drop 4)) ((tail.drop 8).take c),?_,
    fun ra s data => ?_⟩
  · rw [← crcUpdate_append,List.take_add,
      List.drop_append_of_le_length (by rw [List.length_take]; omega)]
    rfl
  · rw [scanPacket_of_le data (by rw [declaredSize_take,hc])
      (show c ≤ (tail.drop 8).length by omega),List.drop_drop]

/-- The end of a pass over an entry whose checksum is wrong, or that is cut off. -/
theorem scanPacket_bad {tail : List UInt8} (h8 : 8 ≤ tail.length)
    (hsum : scannedEnd (declaredSize tail) ≤ tail.length →
      storedCrc tail ≠ crc32 ((tail.take (scannedEnd (declaredSize tail))).drop 4)) :
    ∃ err, (err = errCorruptedLog ∨ err = .unexpectedEOF) ∧ ∀ ra (s : Scan) data,
      scanPacket ra { s with rest := tail.drop 8 } (tail.take 8) data =
        .ok (.inr (s.reader ra,some err)) := by
  by_cases hle : scannedEnd (declaredSize tail) ≤ tail.length
  · obtain ⟨crc,hcrc,hpacket⟩ := scanPacket_sum h8 hle
    refine ⟨errCorruptedLog,.inl rfl,fun ra s data => ?_⟩
    rw [hpacket]
    refine indexPacket_bad data ?_
    rw [hcrc,List.take_take]
    exact (hsum hle).symm
  · refine ⟨.unexpectedEOF,.inr rfl,fun ra s data => ?_⟩
    have hdrop : (tail.drop 8).length = tail.length-8 := List.length_drop
    rw [scannedEnd] at hle
    exact scanPacket_of_lt data (by rw [declaredSize_take]) (show (tail.drop 8).length < _ by omega)

/-- A size below that of a head wraps, and the stored checksum is that of the bytes up to where
it wraps to. -/
def PassesWrapped (tail : List UInt8) : Prop :=
  declaredSize tail < 8 ∧ 2^32+declaredSize tail ≤ tail.length ∧
    storedCrc tail = crc32 ((tail.take (2^32+declaredSize tail)).drop 4)

/-- An entry of no known type that passes for a longer one is skipped. -/
theorem scanBody_skips {tail : List UInt8} (hpass : PassesWrapped tail)
    (hdata : storedType tail ≠ EntryType.data.code) (htrim : storedType tail ≠ EntryType.trim.code)
    (hfoot : storedType tail ≠ EntryType.footer.code) (ra : List UInt8) (s : Scan)
    (h : s.rest = tail) : scanBody ra s = .ok (.inl { s with
      rest := tail.drop (2^32+declaredSize tail), logOff := i64 (s.logOff+declaredSize tail) }) := by
  obtain ⟨hlt,hle,hsum⟩ := hpass
  have h8 : 8 ≤ tail.length := by omega
  rw [← scannedEnd_of_lt hlt] at hle hsum ⊢
  obtain ⟨crc,hcrc,hpacket⟩ := scanPacket_sum h8 hle
  have hgood : ¬crcSum crc ≠ leNat ((tail.take 8).take 4) := by
    rw [hcrc,List.take_take]
    exact fun hne => hne hsum.symm
  rw [scanBody_any ra s h h8,if_neg hdata,if_neg htrim,if_neg hfoot,hpacket]
  unfold indexPacket
  simp only [if_neg hgood,declaredSize_take]

end Head

/-- What opening a log with a bad entry should do: report it and serve the entries before it. -/
def ReportsCorruption (codec : Codec) (ws : List Write) (bytes : List UInt8) (size : ℤ) : Prop :=
  ∃ r err, newReader codec bytes size = .ok (r,some err) ∧
    (err = errCorruptedLog ∨ err = .unexpectedEOF) ∧ Serves r ws

section Corrupt

variable {codec : Codec} {ws : List Write} {tail : List UInt8} {size : ℤ}

/-- The footer is not taken unless the entries that pass for one make the index panic. -/
theorem footerNotTaken_of_refused (hsmall : (logBytes codec ws++tail).length < 2^63)
    (hsize : size = 0 ∨ size = (logBytes codec ws++tail).length)
    (hrefused : (footerEntries codec (logBytes codec ws++tail)).2 = false)
    (hadds : size = 0 ∨ AddsEntries (footerEntries codec (logBytes codec ws++tail)).1) :
    FooterNotTaken codec (logBytes codec ws++tail) size := by
  rcases hsize with rfl | rfl
  · exact .inl le_rfl
  · rcases hadds with h0 | ha
    · exact .inl (by omega)
    · refine (footerNotTaken_iff codec hsmall ?_).mpr ⟨ha,hrefused⟩
      rw [logBytes,List.length_append,List.length_append,headerBytes_length]
      omega

theorem addsEntries_of_opens (hsmall : (logBytes codec ws++tail).length < 2^63)
    (hsize : size = 0 ∨ size = (logBytes codec ws++tail).length) {out : Reader × Option Error}
    (h : newReader codec (logBytes codec ws++tail) size = .ok out) :
    size = 0 ∨ AddsEntries (footerEntries codec (logBytes codec ws++tail)).1 := by
  rcases hsize with rfl | rfl
  · exact .inl rfl
  · right
    cases hadd : ExtentRangeMap.empty.addAll
        ((footerEntries codec (logBytes codec ws++tail)).1.map entryRecord) with
    | ok index => exact ⟨index,hadd⟩
    | error fault =>
      have hindex := (readIndex_probe codec hsmall).1 fault hadd
      have hhead : readHeader codec (logBytes codec ws++tail) = .ok ((headerBytes codec).length,
          entriesBytes ws++tail) := by
        rw [logBytes,List.append_assoc,readHeader_headerBytes]
      have hpos : ((logBytes codec ws++tail).length : ℤ) > 0 := by
        rw [logBytes,List.length_append,List.length_append,headerBytes_length]
        omega
      unfold newReader at h
      rw [hhead] at h
      simp only [if_pos hpos,hindex,bind,Except.bind] at h
      cases h

/-- The scan comes to the checksum of the first entry of `tail`: its type is not that of a trim
or of a footer, the offset of a write is in the file, and what stands at the end of the file in
place of a footer can be indexed. -/
structure ReachesSum (codec : Codec) (ws : List Write) (tail : List UInt8) (size : ℤ) : Prop where
  notTrim : storedType tail ≠ EntryType.trim.code
  notFooter : storedType tail ≠ EntryType.footer.code
  offset : storedType tail = EntryType.data.code → 16 ≤ tail.length
  footer : size = 0 ∨ AddsEntries (footerEntries codec (logBytes codec ws++tail)).1

theorem reachesSum_of_reports (hlen : (logBytes codec ws).length < 2^63)
    (hsmall : (logBytes codec ws++tail).length < 2^63) (h8 : 8 ≤ tail.length)
    (hsize : size = 0 ∨ size = (logBytes codec ws++tail).length)
    (hrefused : (footerEntries codec (logBytes codec ws++tail)).2 = false)
    (h : ReportsCorruption codec ws (logBytes codec ws++tail) size) :
    ReachesSum codec ws tail size := by
  obtain ⟨index,hindex⟩ := exists_indexOf codec ws
  obtain ⟨r,err,hr,herr,-⟩ := h
  have hadds := addsEntries_of_opens hsmall hsize hr
  have hf := footerNotTaken_of_refused hsmall hsize hrefused hadds
  obtain ⟨fuel,hreach⟩ := newReader_reaches hlen hindex hf
  have hbody := scanBody_any (logBytes codec ws++tail)
    ⟨tail,(logBytes codec ws).length,index,endOf ws⟩ (show _ = tail from rfl) h8
  refine ⟨fun ht => ?_,fun ht => ?_,fun ht => ?_,hadds⟩
  · rw [ht,if_neg (by decide),if_pos rfl] at hbody
    rw [hreach,run_fault hbody] at hr
    cases hr
  · rw [ht,if_neg (by decide),if_neg (by decide),if_pos rfl] at hbody
    rw [hreach,run_done hbody] at hr
    cases hr
  · by_contra h16
    rw [ht,if_pos rfl,peek_of_lt (by decide) (by rw [List.length_drop]; omega)] at hbody
    rw [hreach,run_done hbody] at hr
    cases hr
    rcases herr with herr | herr <;> cases herr

theorem reports_of_reachesSum (hlen : (logBytes codec ws).length < 2^63)
    (hsmall : (logBytes codec ws++tail).length < 2^63) (h8 : 8 ≤ tail.length)
    (hsum : scannedEnd (declaredSize tail) ≤ tail.length →
      storedCrc tail ≠ crc32 ((tail.take (scannedEnd (declaredSize tail))).drop 4))
    (hsize : size = 0 ∨ size = (logBytes codec ws++tail).length)
    (hrefused : (footerEntries codec (logBytes codec ws++tail)).2 = false)
    (h : ReachesSum codec ws tail size) :
    ReportsCorruption codec ws (logBytes codec ws++tail) size := by
  obtain ⟨index,hindex⟩ := exists_indexOf codec ws
  have hf := footerNotTaken_of_refused hsmall hsize hrefused h.footer
  obtain ⟨err,herr,hpacket⟩ := scanPacket_bad h8 hsum
  have hends : Ends tail (some err) := by
    intro ra s hs
    rw [scanBody_any ra s hs h8]
    by_cases ht : storedType tail = EntryType.data.code
    · have := h.offset ht
      rw [if_pos ht,peek_of_le (by decide) (by rw [List.length_drop]; omega)]
      exact hpacket ra s _
    · rw [if_neg ht,if_neg h.notTrim,if_neg h.notFooter]
      exact hpacket ra s _
  exact ⟨_,err,newReader_scan hends hlen hindex hf,herr,hindex.serves hsmall⟩

/-- An entry with a wrong checksum is reported, and nothing but the entries before it is served,
just if the scan comes to its checksum and does not take it for a longer entry. One that is taken
for a longer entry up to the end of the file is skipped without an error. -/
theorem reportsCorruption_iff (hsmall : (logBytes codec ws++tail).length < 2^63)
    (h8 : 8 ≤ tail.length)
    (hsum : storedCrc tail ≠ crc32 ((tail.take (declaredSize tail)).drop 4))
    (hsize : size = 0 ∨ size = (logBytes codec ws++tail).length)
    (hrefused : (footerEntries codec (logBytes codec ws++tail)).2 = false) :
    (¬PassesWrapped tail → (ReportsCorruption codec ws (logBytes codec ws++tail) size ↔
      ReachesSum codec ws tail size)) ∧
    (ReportsCorruption codec ws (logBytes codec ws++tail) size → ReachesSum codec ws tail size) ∧
    (PassesWrapped tail → ReachesSum codec ws tail size →
      storedType tail ≠ EntryType.data.code → tail.length = 2^32+declaredSize tail →
      ∃ r, newReader codec (logBytes codec ws++tail) size = .ok (r,none)) := by
  have hlen : (logBytes codec ws).length < 2^63 := by
    rw [List.length_append] at hsmall
    omega
  have hneeded := reachesSum_of_reports hlen hsmall h8 hsize hrefused
  refine ⟨fun hpass => ⟨hneeded,fun h => ?_⟩,hneeded,fun hpass h hdata hend => ?_⟩
  · refine reports_of_reachesSum hlen hsmall h8 (fun hle hcrc => ?_) hsize hrefused h
    by_cases hlt : declaredSize tail < 8
    · rw [scannedEnd_of_lt hlt] at hle hcrc
      exact hpass ⟨hlt,hle,hcrc⟩
    · rw [scannedEnd_of_le (by omega) (declaredSize_lt tail)] at hcrc
      exact hsum hcrc
  · obtain ⟨index,hindex⟩ := exists_indexOf codec ws
    have hf := footerNotTaken_of_refused hsmall hsize hrefused h.footer
    obtain ⟨fuel,hreach⟩ := newReader_reaches hlen hindex hf
    obtain ⟨n,hn⟩ : ∃ n, fuel+tail.length = n+1 := ⟨fuel+tail.length-1,by omega⟩
    have hskip := scanBody_skips hpass hdata h.notTrim h.notFooter (logBytes codec ws++tail)
      ⟨tail,(logBytes codec ws).length,index,endOf ws⟩ rfl
    have hdone := run_done (scanBody_nil (logBytes codec ws++tail)
      ⟨tail.drop (2^32+declaredSize tail),i64 ((logBytes codec ws).length+declaredSize tail),index,
        endOf ws⟩ (List.drop_eq_nil_of_le hend.le)) n
    rw [hn] at hreach
    exact ⟨_,hreach.trans ((run_next hskip _).trans hdone)⟩

end Corrupt

/-- A second entry whose last byte was altered. -/
theorem reportsCorruption_of_payload : ∃ tail : List UInt8,
    tail = (Write.byte 5 9).entry.bytes.set 16 8 ∧
    storedCrc tail ≠ crc32 ((tail.take (declaredSize tail)).drop 4) ∧
    ReportsCorruption wireCodec [.byte 0 1] (logBytes wireCodec [.byte 0 1]++tail)
      (logBytes wireCodec [.byte 0 1]++tail).length := by
  have hnone : footerEntries wireCodec (logBytes wireCodec [.byte 0 1]++
      (Write.byte 5 9).entry.bytes.set 16 8) = ([],false) := by decide +kernel
  have hlong : ¬PassesWrapped ((Write.byte 5 9).entry.bytes.set 16 8) := by
    rintro ⟨-,hle,-⟩
    rw [List.length_set,show (Write.byte 5 9).entry.bytes.length = 17 by decide +kernel] at hle
    omega
  refine ⟨_,rfl,by decide +kernel,((reportsCorruption_iff (by decide +kernel) (by decide +kernel)
    (by decide +kernel) (.inr rfl) (by rw [hnone])).1 hlong).mpr
    ⟨by decide +kernel,by decide +kernel,by decide +kernel,.inr ?_⟩⟩
  rw [hnone]
  exact ⟨.empty,rfl⟩

/-- A second entry whose type was altered: that of a trim makes the scan panic, that of a
footer ends it without an error. -/
theorem corrupted_type_not_reported :
    (storedCrc ((Write.byte 5 9).entry.bytes.set 7 1) ≠ crc32
      ((((Write.byte 5 9).entry.bytes.set 7 1).take
        (declaredSize ((Write.byte 5 9).entry.bytes.set 7 1))).drop 4) ∧
      newReader wireCodec (logBytes wireCodec [.byte 0 1]++
        (Write.byte 5 9).entry.bytes.set 7 1) 0 = .error (.panic "Unsupported")) ∧
    storedCrc ((Write.byte 5 9).entry.bytes.set 7 2) ≠ crc32
      ((((Write.byte 5 9).entry.bytes.set 7 2).take
        (declaredSize ((Write.byte 5 9).entry.bytes.set 7 2))).drop 4) ∧
      ∃ r, newReader wireCodec (logBytes wireCodec [.byte 0 1]++
        (Write.byte 5 9).entry.bytes.set 7 2) 0 = .ok (r,none) := by
  obtain ⟨index,hindex⟩ := exists_indexOf wireCodec [.byte 0 1]
  have hlen : (logBytes wireCodec [.byte 0 1]).length < 2^63 := by decide +kernel
  have hreach (tail : List UInt8) :=
    newReader_reaches hlen hindex (show FooterNotTaken _ (_++tail) 0 from .inl le_rfl)
  refine ⟨⟨by decide +kernel,?_⟩,by decide +kernel,?_⟩
  · obtain ⟨fuel,h⟩ := hreach ((Write.byte 5 9).entry.bytes.set 7 1)
    rw [h]
    refine run_fault ?_ _
    rw [scanBody_any _ _ (show _ = (Write.byte 5 9).entry.bytes.set 7 1 from rfl)
      (by decide +kernel),if_neg (by decide +kernel),if_pos (by decide +kernel)]
  · obtain ⟨fuel,h⟩ := hreach ((Write.byte 5 9).entry.bytes.set 7 2)
    have hbody := scanBody_any (logBytes wireCodec [.byte 0 1]++
      (Write.byte 5 9).entry.bytes.set 7 2) ⟨_,(logBytes wireCodec [.byte 0 1]).length,index,
        endOf [.byte 0 1]⟩ (show _ = (Write.byte 5 9).entry.bytes.set 7 2 from rfl)
        (by decide +kernel)
    rw [if_neg (by decide +kernel),if_neg (by decide +kernel),if_pos (by decide +kernel)] at hbody
    exact ⟨_,h.trans (run_done hbody _)⟩

end Wal
end Logblock
