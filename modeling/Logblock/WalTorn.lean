import Logblock.WalReplay

/-! Torn logs. A crash may leave any prefix of what a writer wrote, and the opener of
`internal/block` tolerates the one error that stands for it. -/
namespace Logblock
namespace Wal

open Bytes ByteStream Loop Runs

/-- `NewWriteLogFromReader`: a torn or corrupted log is opened with what could be read. -/
def newWriteLogFromReader (codec : Codec) (file : List UInt8) (size : ℤ) :
    Exec (Except Error Reader) := do
  let (reader,err) ← newReader codec file size
  match err with
  | none => .ok (.ok reader)
  | some e =>
    if e = .unexpectedEOF then .ok (.ok reader)
    else if e = errCorruptedLog then .ok (.ok reader)
    else .ok (.error e)

/-- The bytes in the file after successful calls, with or without a successful close. -/
def Produced (codec : Codec) (rf : Option ℕ) (ws : List Write) (bytes : List UInt8) : Prop :=
  ∃ w f, Written codec rf ws w f ∧ (bytes = f.bytes ∨
    ∃ fault w' f', w.closeWriter codec f fault = (w',f',none) ∧ bytes = f'.bytes)

/-- Where entry `i` starts. -/
def entryStart (codec : Codec) (ws : List Write) (i : ℕ) : ℕ := (logBytes codec (ws.take i)).length

/-- A cut that leaves only whole entries, or the footer entry with some of what follows it. -/
def Boundary (codec : Codec) (ws : List Write) (k : ℕ) : Prop :=
  (∃ i ≤ ws.length, k = entryStart codec ws i) ∨ entryStart codec ws ws.length+8 ≤ k

/-- What opening the first `k` bytes should do: report a torn file unless the cut is at a
boundary, serve the whole entries and let the log be opened. -/
def OpensTorn (codec : Codec) (ws : List Write) (bytes : List UInt8) (k : ℕ) (size : ℤ) : Prop :=
  ∃ r err, newReader codec (bytes.take k) size = .ok (r,err) ∧
    (Boundary codec ws k → err = none) ∧ (¬Boundary codec ws k → err = some .unexpectedEOF) ∧
    (∃ m ≤ ws.length, (∀ i < ws.length, entryStart codec ws (i+1) ≤ k ↔ i < m) ∧
      Serves r (ws.take m)) ∧
    newWriteLogFromReader codec (bytes.take k) size = .ok (.ok r)

/-- Bytes that do not end in the magic of a footer are not taken for a closed log. -/
theorem footerNotTaken_of_magic (codec : Codec) {ra : List UInt8} (hsmall : ra.length < 2^63)
    (h : ra.drop (ra.length-8) ≠ footerMagic) : FooterNotTaken codec ra ra.length := by
  right
  have hoff : i64 ((ra.length : ℤ)-16) = (ra.length : ℤ)-16 := i64_of_range (by omega) (by omega)
  by_cases hlen : ra.length < 16
  · have hread : readAt ra ((ra.length : ℤ)-16) 16 = ([],some .negativeOffset) := by
      rw [readAt,if_pos (by omega)]
    exact ⟨.negativeOffset,by rw [readIndex,hoff,hread]⟩
  · have hread : readAt ra ((ra.length : ℤ)-16) 16 = (ra.drop (ra.length-16),none) := by
      have := readAt_of_le (show ra.length-16+16 ≤ ra.length by omega)
      rw [show ((ra.length-16 : ℕ) : ℤ) = (ra.length : ℤ)-16 by omega] at this
      rw [this,List.take_of_length_le (by rw [List.length_drop]; omega)]
    have hmagic : (ra.drop (ra.length-16)).drop 8 ≠ footerMagic := by
      rw [List.drop_drop,show ra.length-16+8 = ra.length-8 by omega]
      exact h
    exact ⟨errInvalidIndex,by rw [readIndex,hoff,hread]; simp only [if_pos hmagic]⟩

section Starts

variable (codec : Codec) (ws : List Write)

theorem entryStart_zero : entryStart codec ws 0 = (headerBytes codec).length := by
  simp [entryStart,logBytes]

theorem entryStart_succ {i : ℕ} (hi : i < ws.length) :
    entryStart codec ws (i+1) = entryStart codec ws i+ws[i].entry.len := by
  simp only [entryStart,logBytes,← List.take_concat_get' ws i hi,entriesBytes_append,
    List.length_append,entriesBytes_cons,entriesBytes_nil,LogEntry.length_bytes,List.length_nil]
  omega

theorem entryStart_mono {i j : ℕ} (hij : i ≤ j) : entryStart codec ws i ≤ entryStart codec ws j := by
  have : ws.take j = ws.take i++(ws.take j).drop i := by
    conv_lhs => rw [← List.take_append_drop i (ws.take j)]
    rw [List.take_take,min_eq_left hij]
  simp only [entryStart]
  rw [this]
  simp only [logBytes,entriesBytes_append,List.length_append]
  omega

theorem entryStart_lt {i j : ℕ} (hij : i < j) (hj : j ≤ ws.length) :
    entryStart codec ws i+16 < entryStart codec ws j := by
  have h₁ := entryStart_succ codec ws (show i < ws.length by omega)
  have h₂ := entryStart_mono codec ws (show i+1 ≤ j by omega)
  have h₃ := (ws[i]).entry_len
  have h₄ := (ws[i]).data_pos
  omega

/-- The number of entries that are whole in the first `k` bytes. -/
theorem exists_whole {k : ℕ} (hk : (headerBytes codec).length ≤ k) : ∃ m ≤ ws.length,
    entryStart codec ws m ≤ k ∧ ∀ h : m < ws.length, k < entryStart codec ws m+ws[m].entry.len := by
  have h0 : entryStart codec ws 0 ≤ k := by rw [entryStart_zero]; exact hk
  refine ⟨Nat.findGreatest (fun i => entryStart codec ws i ≤ k) ws.length,
    Nat.findGreatest_le _,Nat.findGreatest_spec (P := fun i => entryStart codec ws i ≤ k)
      (Nat.zero_le _) h0,fun h => ?_⟩
  have := Nat.findGreatest_is_greatest (P := fun i => entryStart codec ws i ≤ k)
    (Nat.lt_succ_self _) h
  rw [Nat.succ_eq_add_one,entryStart_succ codec ws h] at this
  omega

end Starts

/-- A close appends the footer entry and the footer to the log. -/
theorem Logged.closeWriter {codec : Codec} {w w' : Writer} {f f' : File} {ws : List Write}
    (h : Logged codec w f ws []) {fault : Option ℕ}
    (hc : w.closeWriter codec f fault = (w',f',none)) :
    f'.bytes = logBytes codec ws++(footerEntry.bytes++w.footerBytes codec) := by
  have hoff : w.offset ≠ 0 := by
    rw [h.offset,logBytes,List.length_append,headerBytes_length]
    omega
  rw [Writer.closeWriter,if_pos h.isOpen,if_neg hoff] at hc
  simp only [Prod.mk.injEq] at hc
  obtain ⟨-,rfl,herr⟩ := hc
  cases hf : f.fails (footerEntry.bytes++w.footerBytes codec).length fault with
  | true =>
    rw [File.write,hf] at herr
    simp at herr
  | false =>
    simp only [File.write,File.grow_bytes,File.not_fails hf,List.take_length,h.file,List.append_nil]

section Torn

variable {codec : Codec} {rf : Option ℕ} {ws : List Write} {bytes : List UInt8}

/-- The file is empty, or it is the log and possibly a footer. -/
theorem Produced.shape (h : Produced codec rf ws bytes) : (ws = [] ∧ bytes = []) ∨
    (bytes.length < 2^63 ∧ ∃ foot, bytes = logBytes codec ws++foot ∧
      (foot = [] ∨ ∃ t, foot = footerEntry.bytes++t)) := by
  obtain ⟨w,f,hw,hb⟩ := h
  rcases hw.logged with ⟨rfl,rfl,rfl⟩ | ⟨-,hl⟩
  · left
    rcases hb with rfl | ⟨fault,w',f',hc,rfl⟩
    · exact ⟨rfl,rfl⟩
    · simp only [Writer.closeWriter,Writer.new,if_true,Prod.mk.injEq,and_true] at hc
      rw [← hc.2]
      exact ⟨rfl,rfl⟩
  · right
    rcases hb with rfl | ⟨fault,w',f',hc,rfl⟩
    · exact ⟨f.small,[],hl.file,.inl rfl⟩
    · exact ⟨f'.small,_,hl.closeWriter hc,.inr ⟨_,rfl⟩⟩

/-- The error for a cut after `m` whole entries, of which there are `n`. -/
def tornError (n m d : ℕ) : Option Error :=
  if d = 0 then none
  else if m < n then some (cutError d)
  else if d < 8 then some .unexpectedEOF else none

/-- Whatever follows the whole entries in a cut file ends the scan. -/
theorem ends_torn {foot : List UInt8} (hfoot : foot = [] ∨ ∃ t, foot = footerEntry.bytes++t)
    {k m : ℕ} (hm : m ≤ ws.length) (hle : entryStart codec ws m ≤ k)
    (hlt : ∀ h : m < ws.length, k < entryStart codec ws m+ws[m].entry.len)
    (hk : k ≤ (logBytes codec ws++foot).length) : ∃ tail,
      (logBytes codec ws++foot).take k = logBytes codec (ws.take m)++tail ∧
      Ends tail (tornError ws.length m (k-entryStart codec ws m)) := by
  have hsplit : logBytes codec ws++foot =
      logBytes codec (ws.take m)++(entriesBytes (ws.drop m)++foot) := by
    conv_lhs => rw [← List.take_append_drop m ws,logBytes,entriesBytes_append]
    simp only [logBytes,List.append_assoc]
  refine ⟨(entriesBytes (ws.drop m)++foot).take (k-entryStart codec ws m),?_,?_⟩
  · rw [hsplit,List.take_append,List.take_of_length_le hle]
    rfl
  rw [hsplit,List.length_append] at hk
  change k ≤ entryStart codec ws m+_ at hk
  generalize hd : k-entryStart codec ws m = d
  unfold tornError
  split_ifs with h₁ h₂ h₃
  · rw [h₁,List.take_zero]
    exact ends_nil
  · have hlt := hlt h₂
    rw [List.drop_eq_getElem_cons h₂,entriesBytes_cons,List.append_assoc,
      List.take_append_of_le_length (by rw [LogEntry.length_bytes]; omega)]
    exact ends_entry_take _ (by omega) (by omega)
  · have hall : ws.drop m = [] := List.drop_of_length_le (by omega)
    rw [hall,entriesBytes_nil,List.nil_append] at hk ⊢
    exact ends_short (by rw [List.length_take]; omega) (by rw [List.length_take]; omega)
  · have hall : ws.drop m = [] := List.drop_of_length_le (by omega)
    rw [hall,entriesBytes_nil,List.nil_append] at hk ⊢
    rcases hfoot with rfl | ⟨t,rfl⟩
    · simp only [List.length_nil] at hk
      omega
    · rw [List.take_append,List.take_of_length_le (by simp; omega)]
      exact ends_footer _

/-- Opening a cut file that has its whole header. -/
theorem newReader_cut {foot : List UInt8} (hfoot : foot = [] ∨ ∃ t, foot = footerEntry.bytes++t)
    (hlen : (logBytes codec ws++foot).length < 2^63) {k m : ℕ} (hm : m ≤ ws.length)
    (hle : entryStart codec ws m ≤ k)
    (hlt : ∀ h : m < ws.length, k < entryStart codec ws m+ws[m].entry.len)
    (hk : k ≤ (logBytes codec ws++foot).length) {size : ℤ}
    (hf : FooterNotTaken codec ((logBytes codec ws++foot).take k) size) :
    ∃ r, newReader codec ((logBytes codec ws++foot).take k) size =
        .ok (r,tornError ws.length m (k-entryStart codec ws m)) ∧ Serves r (ws.take m) := by
  obtain ⟨tail,htake,htail⟩ := ends_torn hfoot hm hle hlt hk
  obtain ⟨index,hindex⟩ := exists_indexOf codec (ws.take m)
  have hshort : (logBytes codec (ws.take m)++tail).length < 2^63 := by
    rw [← htake,List.length_take]
    omega
  have hshort' : (logBytes codec (ws.take m)).length < 2^63 := by
    rw [List.length_append] at hshort
    omega
  rw [htake] at hf ⊢
  exact ⟨_,newReader_scan htail hshort' hindex hf,hindex.serves hshort⟩

/-- The reader of a file that is cut inside the header. -/
theorem newReader_short_header {k : ℕ} (hk : k < (headerBytes codec).length) (size : ℤ) :
    newReader codec ((headerBytes codec).take k) size =
      .ok (⟨(headerBytes codec).take k,0,.empty⟩,some .unexpectedEOF) := by
  rw [newReader,readHeader_short codec hk]
  rfl

theorem newWriteLogFromReader_of {file : List UInt8} {size : ℤ} {r : Reader} {err : Option Error}
    (h : newReader codec file size = .ok (r,err)) (herr : err = none ∨ err = some .unexpectedEOF) :
    newWriteLogFromReader codec file size = .ok (.ok r) := by
  rw [newWriteLogFromReader,h]
  rcases herr with rfl | rfl <;> rfl

theorem serves_empty (file : List UInt8) (hlen : file.length < 2^63) :
    Serves ⟨file,0,.empty⟩ [] :=
  serves_of_content ⟨ExtentRangeMap.empty_wf,by simp [ExtentRangeMap.empty],by simp,hlen⟩ rfl rfl

/-- A cut after `m` whole entries is at a boundary just if nothing follows them, or the
footer entry does. -/
theorem boundary_iff {k m : ℕ} (hm : m ≤ ws.length) (hle : entryStart codec ws m ≤ k)
    (hlt : ∀ h : m < ws.length, k < entryStart codec ws m+ws[m].entry.len) :
    Boundary codec ws k ↔ k = entryStart codec ws m ∨
      (m = ws.length ∧ entryStart codec ws m+8 ≤ k) := by
  have hnext (h : m < ws.length) : k < entryStart codec ws (m+1) := by
    rw [entryStart_succ codec ws h]
    exact hlt h
  constructor
  · rintro (⟨i,hi,rfl⟩ | h)
    · rcases lt_trichotomy i m with him | rfl | him
      · have := entryStart_lt codec ws him hm
        omega
      · exact .inl rfl
      · have := entryStart_mono codec ws (show m+1 ≤ i by omega)
        have := hnext (by omega)
        omega
    · rcases hm.lt_or_eq with hm' | rfl
      · have := entryStart_mono codec ws (show m+1 ≤ ws.length by omega)
        have := hnext hm'
        omega
      · exact .inr ⟨rfl,h⟩
  · rintro (rfl | ⟨rfl,h⟩)
    · exact .inl ⟨m,hm,rfl⟩
    · exact .inr h

end Torn

end Wal
end Logblock
