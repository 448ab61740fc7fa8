import Logblock.WalTorn

/-! Writes that fail. The file may take any prefix of an entry before it reports an error, and
the writer goes on from the offset it had. -/
namespace Logblock
namespace Wal

open Bytes ByteStream Loop Runs

/-- A call of `WriteAt` and how the file fails during it. -/
structure Call where
  write : Write
  faults : Faults

/-- A log in use: the writer, its file and the writes that were reported as done. -/
structure LogState where
  writer : Writer
  file : File
  done : List Write

namespace LogState

def new (rf : Option ℕ) : LogState := ⟨Writer.new rf,.empty,[]⟩

def call (codec : Codec) (s : LogState) (c : Call) : Exec LogState := do
  let (w,f,_,err) ← s.writer.writeAt codec s.file c.write.data c.write.off c.faults
  .ok ⟨w,f,if err = none then s.done++[c.write] else s.done⟩

def calls (codec : Codec) (s : LogState) (cs : List Call) : Exec LogState :=
  cs.foldlM (call codec) s

/-- No byte goes behind a torn entry, and no call fails with its entry whole in the file. -/
def Safe (s : LogState) (c : Call) : Prop :=
  match c.faults.entry with
  | none => s.writer.offset = s.file.bytes.length
  | some k => (k = 0 ∨ s.writer.offset = s.file.bytes.length) ∧ k < c.write.entry.len

/-- The states that runs of such calls reach. -/
inductive Reached (codec : Codec) (rf : Option ℕ) : LogState → Prop
  | new : Reached codec rf (LogState.new rf)
  | call {s s' : LogState} (c : Call) : Reached codec rf s → s.Safe c → s.call codec c = .ok s' →
      Reached codec rf s'

/-- What was reported as done is read back from the file and recovered by a scan of it. -/
structure Sound (codec : Codec) (s : LogState) : Prop where
  readBack : ∀ n off, 0 ≤ off → off < 2^63 → s.writer.readAtFrom s.file.bytes n off =
    .ok (readResult (lastWritten s.done) (stopOf s.done) n off.toNat)
  recovered : ∀ size, FooterNotTaken codec s.file.bytes size →
    ∃ r err, newReader codec s.file.bytes size = .ok (r,err) ∧ Serves r s.done

/-- The header could not be written, and never will be. -/
structure HeaderFailed (codec : Codec) (s : LogState) : Prop where
  header : s.writer.headerOnce = some (some .device)
  index : s.writer.index = .empty
  done : s.done = []
  file : ∃ k, s.file.bytes = (headerBytes codec).take k

/-- An entry of which some bytes are missing. -/
def TornEntry (torn : List UInt8) : Prop :=
  torn = [] ∨ ∃ (wr : Write) (k : ℕ), 0 < k ∧ k < wr.entry.len ∧ torn = wr.entry.bytes.take k

/-- The states of a log: unused, without a header, or with entries and a torn one. -/
inductive Inv (codec : Codec) (rf : Option ℕ) (s : LogState) : Prop
  | fresh (h : s = LogState.new rf)
  | failed (h : HeaderFailed codec s)
  | logged (torn : List UInt8) (h : Logged codec s.writer s.file s.done torn) (ht : TornEntry torn)

variable {codec : Codec} {rf : Option ℕ} {s : LogState} {c : Call}

/-- A step from a log that has its header. -/
theorem inv_call_logged {torn : List UInt8} (h : Logged codec s.writer s.file s.done torn)
    (ht : TornEntry torn) (hsafe : s.Safe c) :
    ∃ s', s.call codec c = .ok s' ∧ Inv codec rf s' := by
  have hlen : s.file.bytes.length = (logBytes codec s.done).length+torn.length := by
    rw [h.file,List.length_append]
  have htorn (heq : s.writer.offset = s.file.bytes.length) : torn = [] := by
    rw [h.offset,hlen] at heq
    exact List.length_eq_zero_iff.mp (by omega)
  have hpos : 0 < c.write.entry.len := by rw [Write.entry_len]; omega
  unfold Safe at hsafe
  cases hf : s.file.fails c.write.entry.len c.faults.entry with
  | true =>
    -- the call fails, and what it leaves in the file is not a whole entry
    refine ⟨⟨s.writer,s.file.grow c.write.entry.bytes c.faults.entry,s.done⟩,?_,?_⟩
    · rw [call,h.writeAt_of_fails c.write c.faults hf]
      rfl
    refine .logged (torn++c.write.entry.bytes.take
      (s.file.persisted c.write.entry.bytes.length c.faults.entry)) ⟨h.isOpen,h.header,?_,h.offset,
      h.endOff,h.index⟩ ?_
    · rw [File.grow_bytes,h.file,List.append_assoc]
    · rw [LogEntry.length_bytes]
      have part (n : ℕ) (hn : n < c.write.entry.len) : TornEntry (c.write.entry.bytes.take n) := by
        rcases Nat.eq_zero_or_pos n with rfl | hn0
        · exact .inl (List.take_zero)
        · exact .inr ⟨c.write,n,hn0,hn,rfl⟩
      cases hfault : c.faults.entry with
      | none =>
        rw [hfault] at hsafe hf
        rw [htorn hsafe,List.nil_append]
        exact part _ (File.persisted_lt hf)
      | some k =>
        rw [hfault] at hsafe
        obtain ⟨hk | heq,hlt⟩ := hsafe
        · have := s.file.persisted_le_fault c.write.entry.len k
          rw [show s.file.persisted c.write.entry.len (some k) = 0 by omega,List.take_zero,
            List.append_nil]
          exact ht
        · rw [htorn heq,List.nil_append]
          exact part _ ((s.file.persisted_le_fault _ k).trans_lt hlt)
  | false =>
    have hnil : torn = [] := by
      cases hfault : c.faults.entry with
      | none =>
        rw [hfault] at hsafe
        exact htorn hsafe
      | some k =>
        rw [hfault] at hsafe hf
        rw [File.fails_of_le hpos hsafe.2.le] at hf
        cases hf
    subst hnil
    obtain ⟨w',hw',hlog⟩ := h.writeAt_of_not_fails c.write c.faults hf
    refine ⟨⟨w',s.file.grow c.write.entry.bytes c.faults.entry,s.done++[c.write]⟩,?_,
      .logged [] hlog (.inl rfl)⟩
    rw [call,hw']
    rfl

/-- A step from a log whose header failed changes nothing. -/
theorem call_headerFailed (h : HeaderFailed codec s) : s.call codec c = .ok s := by
  have hle := c.write.data_le
  have hpos := c.write.data_pos
  have hwrite : s.writer.writeAt codec s.file c.write.data c.write.off c.faults =
      .ok (s.writer,s.file,0,some .device) := by
    rw [Writer.writeAt,if_neg (by omega),if_neg (by omega),Writer.writeHeader,h.header]
  rw [call,hwrite]
  rfl

/-- Every call returns, and leaves the log in one of its states. -/
theorem inv_call (hinv : Inv codec rf s) (hsafe : s.Safe c) :
    ∃ s', s.call codec c = .ok s' ∧ Inv codec rf s' := by
  cases hinv with
  | failed h => exact ⟨s,call_headerFailed h,.failed h⟩
  | logged torn h ht => exact inv_call_logged h ht hsafe
  | fresh h =>
    subst h
    cases hf : File.empty.fails (headerBytes codec).length c.faults.header with
    | true =>
      have hcall := writeAt_new_of_fails codec rf c.write c.faults hf
      refine ⟨⟨{ Writer.new rf with
          headerOnce := some (some .device)
          offset := File.empty.persisted (headerBytes codec).length c.faults.header },
        File.empty.grow (headerBytes codec) c.faults.header,[]⟩,?_,.failed ⟨rfl,rfl,rfl,_,rfl⟩⟩
      rw [call,show (LogState.new rf).writer = Writer.new rf by rfl,
        show (LogState.new rf).file = .empty by rfl,hcall]
      rfl
    | false =>
      have hfile : (File.empty.grow (headerBytes codec) c.faults.header).bytes =
          headerBytes codec := by
        rw [File.grow_bytes,File.not_fails hf,List.take_length]
        rfl
      have heq : (afterHeader codec rf).offset =
          (File.empty.grow (headerBytes codec) c.faults.header).bytes.length := by
        rw [hfile]
        rfl
      -- the rest of the call is a call on the log that has its header
      have hsafe' : Safe ⟨afterHeader codec rf,File.empty.grow (headerBytes codec) c.faults.header,
          []⟩ c := by
        unfold Safe at hsafe ⊢
        cases hfault : c.faults.entry with
        | none => exact heq
        | some k =>
          rw [hfault] at hsafe
          exact ⟨.inr heq,hsafe.2⟩
      obtain ⟨s',hcall,hinv⟩ : ∃ s', LogState.call codec _ c = .ok s' ∧ Inv codec rf s' :=
        inv_call_logged (logged_afterHeader codec rf hfile) (.inl rfl) hsafe'
      refine ⟨s',?_,hinv⟩
      rw [← hcall,call,call,show (LogState.new rf).writer = Writer.new rf by rfl,
        show (LogState.new rf).file = .empty by rfl,writeAt_new codec rf c.write c.faults hf]
      rfl

theorem Reached.inv (h : Reached codec rf s) : Inv codec rf s := by
  induction h with
  | new => exact .fresh rfl
  | call c _ hsafe hcall ih =>
    obtain ⟨s',hcall',hinv⟩ := inv_call ih hsafe
    rw [hcall] at hcall'
    cases hcall'
    exact hinv

/-- The scan stops at a torn entry. -/
theorem TornEntry.ends {torn : List UInt8} (h : TornEntry torn) : ∃ err, Ends torn err := by
  rcases h with rfl | ⟨wr,k,h₁,h₂,rfl⟩
  · exact ⟨_,ends_nil⟩
  · exact ⟨_,ends_entry_take wr h₁ h₂⟩

theorem sound_of_logged {torn : List UInt8} (h : Logged codec s.writer s.file s.done torn)
    (ht : TornEntry torn) : Sound codec s := by
  have hsmall := s.file.small
  rw [h.file] at hsmall
  have hshort : (logBytes codec s.done).length < 2^63 := by
    rw [List.length_append] at hsmall
    omega
  refine ⟨fun n off h₁ h₂ => ?_,fun size hf => ?_⟩
  · rw [h.file]
    exact h.index.readIndexed_eq hsmall n h₁ h₂
  · obtain ⟨err,herr⟩ := ht.ends
    rw [h.file] at hf ⊢
    exact ⟨_,_,newReader_scan herr hshort h.index hf,h.index.serves hsmall⟩

/-- A log without an entry holds nothing. -/
theorem sound_of_header {k : ℕ} (hfile : s.file.bytes = (headerBytes codec).take k)
    (hindex : s.writer.index = .empty) (hdone : s.done = []) : Sound codec s := by
  have hsmall := s.file.small
  have hserves := serves_empty s.file.bytes hsmall
  refine ⟨fun n off h₁ h₂ => ?_,fun size hf => ?_⟩
  · rw [Writer.readAtFrom,hindex,hdone]
    exact hserves.readAt n off h₁ h₂
  · rw [hdone]
    by_cases hk : k < (headerBytes codec).length
    · rw [hfile] at hserves ⊢
      exact ⟨_,_,newReader_short_header hk size,hserves⟩
    · have hall : s.file.bytes = logBytes codec []++[] := by
        rw [hfile,List.take_of_length_le (by omega)]
        simp [logBytes]
      have hindex' : IndexOf codec [] .empty := rfl
      rw [hall] at hf hsmall ⊢
      exact ⟨_,_,newReader_scan ends_nil (by simpa using hsmall) hindex' hf,
        hindex'.serves hsmall⟩

theorem Inv.sound (h : Inv codec rf s) : Sound codec s := by
  cases h with
  | fresh h =>
    subst h
    exact sound_of_header (k := 0) rfl rfl rfl
  | failed h =>
    obtain ⟨k,hk⟩ := h.file
    exact sound_of_header hk h.index h.done
  | logged torn h ht => exact sound_of_logged h ht

/-- As long as no byte goes behind a torn entry, a failed call changes nothing that can be
read, and every write reported as done is read back and recovered. -/
theorem reached_sound (h : Reached codec rf s) : Sound codec s ∧
    ∀ c, s.Safe c → ∃ w f n err,
      s.writer.writeAt codec s.file c.write.data c.write.off c.faults = .ok (w,f,n,err) ∧
      (err ≠ none → ∀ n off, 0 ≤ off → off < 2^63 →
        w.readAtFrom f.bytes n off = s.writer.readAtFrom s.file.bytes n off) := by
  have hsound := h.inv.sound
  refine ⟨hsound,fun c hsafe => ?_⟩
  obtain ⟨s',hcall,hinv⟩ := inv_call h.inv hsafe
  cases hw : s.writer.writeAt codec s.file c.write.data c.write.off c.faults with
  | error e =>
    rw [call,hw] at hcall
    cases hcall
  | ok res =>
    obtain ⟨w,f,n,err⟩ := res
    refine ⟨w,f,n,err,rfl,fun herr n off h₁ h₂ => ?_⟩
    rw [call,hw] at hcall
    have hs' : s' = ⟨w,f,s.done⟩ := by
      have := (Except.ok.inj hcall).symm
      rwa [if_neg herr] at this
    have hread := hinv.sound.readBack n off h₁ h₂
    rw [hs'] at hread
    exact hread.trans (hsound.readBack n off h₁ h₂).symm

/-- A write, and one that fails after four bytes. -/
theorem reached_sound_behind_failure : ∃ s, Reached wireCodec none s ∧
    s.file.bytes.length = 41 ∧ Sound wireCodec s ∧
    s.writer.readAtFrom s.file.bytes 2 0 = .ok ([1],some .eof) := by
  obtain ⟨s₁,hs₁,h₁⟩ := exists_of_map (b := ((37 : ℤ),37)) (show ((LogState.new none).call wireCodec
    ⟨.byte 0 1,⟨none,none⟩⟩).map (fun s => (s.writer.offset,s.file.bytes.length)) = _
      by decide +kernel)
  obtain ⟨s₂,hs₂,h₂⟩ := exists_of_map (b := (41,.ok ([1],some .eof)))
    (show (((LogState.new none).call wireCodec ⟨.byte 0 1,⟨none,none⟩⟩).bind fun s =>
      s.call wireCodec ⟨.byte 1 7,⟨none,some 4⟩⟩).map
      (fun s => (s.file.bytes.length,s.writer.readAtFrom s.file.bytes 2 0)) = _ by decide +kernel)
  rw [hs₁] at hs₂
  simp only [Prod.mk.injEq] at h₁ h₂
  have hsafe : s₁.Safe ⟨.byte 1 7,⟨none,some 4⟩⟩ :=
    ⟨.inr (by rw [h₁.1,h₁.2]; rfl),by decide⟩
  have hfirst : (LogState.new none).Safe ⟨.byte 0 1,⟨none,none⟩⟩ := rfl
  have hreached : Reached wireCodec none s₂ := .call _ (.call _ .new hfirst hs₁) hsafe hs₂
  exact ⟨s₂,hreached,h₂.1,(reached_sound hreached).1,h₂.2⟩

/-- A write that succeeds behind a torn entry: the byte 9 written at 5 is read back as 0. -/
theorem write_behind_torn_entry_lost : ∃ s, (LogState.new none).calls wireCodec
      [⟨.byte 0 1,⟨none,none⟩⟩,⟨.byte 1 7,⟨none,some 4⟩⟩,⟨.byte 5 9,⟨none,none⟩⟩] = .ok s ∧
    s.done = [.byte 0 1,.byte 5 9] ∧
    s.writer.readAtFrom s.file.bytes 1 5 = .ok ([0],none) ∧ ¬Sound wireCodec s := by
  obtain ⟨s,hs,h⟩ := exists_of_map (b := ([.byte 0 1,.byte 5 9],.ok ([0],none)))
    (show ((LogState.new none).calls wireCodec
      [⟨.byte 0 1,⟨none,none⟩⟩,⟨.byte 1 7,⟨none,some 4⟩⟩,⟨.byte 5 9,⟨none,none⟩⟩]).map
      (fun s => (s.done,s.writer.readAtFrom s.file.bytes 1 5)) = _ by decide +kernel)
  simp only [Prod.mk.injEq] at h
  refine ⟨s,hs,h.1,h.2,fun hsound => ?_⟩
  have hread := hsound.readBack 1 5 (by decide) (by decide)
  rw [h.1,h.2] at hread
  exact absurd hread (by decide)

end LogState

end Wal
end Logblock
