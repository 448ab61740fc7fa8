import Logblock.SparseBuild

/-! The sizes of the index sections of a sparse table. The builder counts blocks in 48 bits, the
header and the reader count entries and bytes in 32. -/
namespace Logblock
namespace Sparse

open Loop Bytes Builder

/-- The first blocks of the entries of a call, which take 127 blocks each. -/
def IndexEntry.entryStarts (c : IndexEntry) : List ℕ :=
  (List.range ((c.length+126)/127)).map fun i => c.offset+127*i

def entryStarts (calls : List IndexEntry) : List ℕ := calls.flatMap IndexEntry.entryStarts

/-- The number of full ranges, the first block of the open one, and its number of entries. -/
structure RangeCount where
  full : ℕ
  start : ℕ
  entries : ℕ

/-- The next entry starts a range if the open one has 64 entries or starts too far back. -/
def RangeCount.next (k : RangeCount) (o : ℕ) : RangeCount :=
  if 64 ≤ k.entries ∨ 65535 < o-k.start then ⟨k.full+1,o,1⟩ else ⟨k.full,k.start,k.entries+1⟩

/-- The number of ranges for entries with the given first blocks. -/
def rangeCount : List ℕ → ℕ
  | [] => 0
  | o::os => ((o::os).foldl RangeCount.next ⟨0,o,0⟩).full+1

namespace Builder

def IndexState.count (s : IndexState) : RangeCount :=
  ⟨s.ranges.length,s.currRange.startOffset,s.currRange.numEntries⟩

theorem addEntry_count {s s' : IndexState} {o n : ℕ} (h : addEntry s o n = .ok s') :
    s'.count = s.count.next o ∧ s'.blockEntryBuf.length = s.blockEntryBuf.length+3 := by
  rw [addEntry] at h
  cases hl : lengthType n with
  | error e =>
    rw [hl] at h
    cases h
  | ok l =>
    rw [hl] at h
    by_cases hc : maxRangeEntries ≤ s.currRange.numEntries ∨ 65535 < o-s.currRange.startOffset
    · rw [if_pos hc] at h
      cases h
      refine ⟨?_,by simp [BlockEntry.length_marshal]⟩
      rw [RangeCount.next,if_pos (by simpa only [IndexState.count,maxRangeEntries] using hc)]
      simp [IndexState.count]
    · rw [if_neg hc] at h
      cases h
      refine ⟨?_,by simp [BlockEntry.length_marshal]⟩
      rw [RangeCount.next,if_neg (by simpa only [IndexState.count,maxRangeEntries] using hc)]
      simp [IndexState.count]

/-- The loop of `AddBlocks` cuts its blocks into entries of 127. -/
theorem addEntries_count {fuel left o : ℕ} {s s' : IndexState} (hfuel : left ≤ fuel)
    (h : addEntries fuel s o left = .ok s') :
    s'.count = ((List.range ((left+126)/127)).map fun i => o+127*i).foldl RangeCount.next s.count ∧
      s'.blockEntryBuf.length = s.blockEntryBuf.length+3*((left+126)/127) := by
  induction fuel generalizing s o left with
  | zero =>
    obtain rfl : left = 0 := by omega
    cases h
    simp
  | succ fuel ih =>
    rw [addEntries] at h
    by_cases hleft : left = 0
    · rw [if_pos hleft] at h
      cases h
      simp [hleft]
    · rw [if_neg hleft] at h
      have hmax : maxEntryLength = 127 := rfl
      generalize hn : min left maxEntryLength = n at h
      cases hone : addEntry s o n with
      | error e =>
        rw [hone] at h
        cases h
      | ok s₁ =>
        rw [hone] at h
        obtain ⟨hcount,hbuf⟩ := addEntry_count hone
        obtain ⟨hrest,hbuf'⟩ := ih (show left-n ≤ fuel by omega) h
        have hk : (left+126)/127 = (left-n+126)/127+1 := by omega
        have hstarts : (List.range ((left+126)/127)).map (fun i => o+127*i) =
            o::(List.range ((left-n+126)/127)).map fun i => o+n+127*i := by
          rw [hk,List.range_succ_eq_map,List.map_cons,List.map_map,Nat.mul_zero,Nat.add_zero]
          congr 1
          refine List.map_congr_left fun i hi => ?_
          have hi' := List.mem_range.mp hi
          simp only [Function.comp_apply]
          omega
        rw [hstarts,List.foldl_cons,← hcount]
        exact ⟨hrest,by omega⟩

/-- The number of entries and ranges of a builder. -/
structure Counted (b : Builder) (os : List ℕ) : Prop where
  buf : b.blockEntryBuf.length = 3*os.length
  ranges : (os = [] ∧ b.ranges = []) ∨
    ∃ o os' pre re, os = o::os' ∧ b.ranges = pre++[re] ∧
      os.foldl RangeCount.next ⟨0,o,0⟩ = ⟨pre.length,re.startOffset,re.numEntries⟩

theorem Counted.length_ranges {b : Builder} {os : List ℕ} (h : b.Counted os) :
    b.ranges.length = rangeCount os := by
  obtain ⟨rfl,hnil⟩ | ⟨o,os',pre,re,rfl,hranges,hfold⟩ := h.ranges
  · simp [hnil,rangeCount]
  · rw [rangeCount,hfold,hranges]
    simp

theorem Counted.addBlocks_eq {b b' : Builder} {os : List ℕ} (h : b.Counted os) {c : IndexEntry}
    (hadd : b.addBlocks c.offset c.length c.data = .ok b') : b'.Counted (os++c.entryStarts) := by
  simp only [addBlocks,Int.toNat_natCast] at hadd
  split_ifs at hadd with h₁ h₂ h₃ h₄ h₅
  · cases hadd
    simpa [IndexEntry.entryStarts,h₅] using h
  generalize hs : IndexState.mk b.ranges.dropLast (b.ranges.getLastD ⟨c.offset,0,0⟩)
    b.blockEntryBuf b.dataOffset = s at hadd
  cases hrun : addEntries c.length s c.offset c.length with
  | error e =>
    rw [hrun] at hadd
    cases hadd
  | ok s' =>
    rw [hrun] at hadd
    cases hadd
    obtain ⟨hcount,hbuf⟩ := addEntries_count le_rfl hrun
    change _ = c.entryStarts.foldl RangeCount.next s.count at hcount
    have hlen : c.entryStarts.length = (c.length+126)/127 := by
      simp [IndexEntry.entryStarts]
    have hbuf₀ : s.blockEntryBuf = b.blockEntryBuf := by rw [← hs]
    have hstart : s.count = ⟨b.ranges.dropLast.length,
        (b.ranges.getLastD ⟨c.offset,0,0⟩).startOffset,
        (b.ranges.getLastD ⟨c.offset,0,0⟩).numEntries⟩ := by
      rw [← hs]
      rfl
    refine ⟨?_,.inr ?_⟩
    · simp only [List.length_append,hlen,hbuf,hbuf₀,h.buf]
      omega
    · obtain ⟨rfl,hnil⟩ | ⟨o,os',pre,re,rfl,hranges,hfold⟩ := h.ranges
      · obtain ⟨k,hk⟩ : ∃ k, (c.length+126)/127 = k+1 := ⟨(c.length+126)/127-1,by omega⟩
        have hcons : c.entryStarts = c.offset::(List.range k).map fun i => c.offset+127*(i+1) := by
          rw [IndexEntry.entryStarts,hk,List.range_succ_eq_map]
          simp [Function.comp_def]
        refine ⟨c.offset,_,s'.ranges,s'.currRange,by rw [List.nil_append,hcons],rfl,?_⟩
        have hopen : s.count = ⟨0,c.offset,0⟩ := by
          rw [hstart,hnil]
          rfl
        rw [List.nil_append,← hopen]
        exact hcount.symm
      · refine ⟨o,os'++c.entryStarts,s'.ranges,s'.currRange,rfl,rfl,?_⟩
        have hopen : s.count = ⟨pre.length,re.startOffset,re.numEntries⟩ := by
          rw [hstart,hranges]
          simp
        rw [List.foldl_append,hfold,← hopen]
        exact hcount.symm

theorem Counted.new (bs : ℕ) : (Builder.new bs).Counted [] := ⟨rfl,.inl ⟨rfl,rfl⟩⟩

theorem Counted.addAll_eq {b b' : Builder} {os : List ℕ} (h : b.Counted os)
    {calls : List IndexEntry} (hadd : b.addAll calls = .ok b') :
    b'.Counted (os++entryStarts calls) := by
  induction calls generalizing b os with
  | nil =>
    cases hadd
    simpa [entryStarts] using h
  | cons c calls ih =>
    rw [addAll,List.foldlM_cons] at hadd
    cases hone : b.addBlocks c.offset c.length c.data with
    | error e =>
      rw [hone] at hadd
      cases hadd
    | ok b₁ =>
      rw [hone] at hadd
      have := ih (h.addBlocks_eq hone) hadd
      simpa [entryStarts] using this

end Builder

/-- The counts in the header, the products that `Load` computes of them in 32 bits, and the data
offset that it derives are the true ones. A table without blocks has no data offset. -/
structure SizesRight (codec : HeaderCodec) (b : Builder) : Prop where
  numRangeEntries : b.header.numRangeEntries = b.ranges.length
  numBlockEntries : b.header.numBlockEntries*blockEntrySize = b.blockEntryBuf.length
  rangeLen : b.header.numRangeEntries*b.header.rangeEntrySize%2^32 =
    (b.ranges.flatMap RangeEntry.marshal).length
  entryLen : b.header.numBlockEntries*b.header.blockEntrySize%2^32 = b.blockEntryBuf.length
  dataOffset : ∀ file r, b.build codec = .ok file → load codec file = .ok (.ok r) →
    b.ranges ≠ [] → ∃ data, file = b.front codec++data ∧ r.dataOffset = (b.front codec).length

section Sizes

variable {codec : HeaderCodec} {b : Builder} {gs : List (List Run)}

/-- The products are below `2^32`. -/
theorem SizesRight.small (h : SizesRight codec b) :
    b.blockEntryBuf.length < 2^32 ∧ 16*b.ranges.length < 2^32 := by
  have hr := h.rangeLen
  have he := h.entryLen
  rw [length_marshalRanges] at hr
  omega

theorem Builder.Holds.sizesRight (h : b.Holds gs) (he : b.blockEntryBuf.length < 2^32)
    (hr : 16*b.ranges.length < 2^32) : SizesRight codec b := by
  have hbuf := h.length_buf
  have hranges : b.ranges.length = gs.length := by rw [h.ranges,List.length_map]
  have hr₁ : b.header.rangeEntrySize = 16 := rfl
  have he₁ : b.header.blockEntrySize = 3 := rfl
  have hnr : b.header.numRangeEntries = b.ranges.length := Nat.mod_eq_of_lt (by omega)
  have hnb : b.header.numBlockEntries*blockEntrySize = b.blockEntryBuf.length := by
    simp only [header,Sparse.blockEntrySize]
    omega
  refine ⟨hnr,hnb,?_,?_,fun file r hbuild hload hne => ?_⟩
  · rw [hr₁,hnr,length_marshalRanges]
    omega
  · simp only [Sparse.blockEntrySize] at hnb
    rw [he₁]
    omega
  · obtain ⟨data,_,rfl⟩ := (build_eq_ok codec).mp hbuild
    refine ⟨data,rfl,?_⟩
    have hgs : gs ≠ [] := by
      rintro rfl
      exact hne h.ranges
    by_cases hsize : b.header.blockSize < 512 ∨ 1024*1024 < b.header.blockSize
    · -- the table is refused
      have hhead := readHeader_eq codec h.fits rfl (b.writeIndex++data)
      rw [if_pos hsize] at hhead
      have hassoc : b.front codec++data = magic++leBytes 4 (codec.marshal b.header).length++
          codec.marshal b.header++(b.writeIndex++data) := by
        simp [front]
      rw [hassoc,load,hhead] at hload
      cases hload
    · rw [h.load_eq codec hgs (by omega) (by omega) (by omega) (by omega) data] at hload
      cases hload
      rfl

end Sizes

/-- The 32-bit sizes are right for exactly those tables whose index sections have fewer than `2^32`
bytes each. -/
theorem sizesRight_iff (codec : HeaderCodec) {bs : ℕ} {calls : List IndexEntry} {b : Builder}
    (hadd : (Builder.new bs).addAll calls = .ok b)
    (hcalls : ∀ c ∈ calls, c.offset+c.length ≤ maxBlocks) :
    SizesRight codec b ↔
      3*(entryStarts calls).length < 2^32 ∧ 16*rangeCount (entryStarts calls) < 2^32 := by
  obtain ⟨gs,h,_⟩ := (Holds.new bs).addAll_eq hcalls hadd
  have hcount := (Counted.new bs).addAll_eq hadd
  rw [List.nil_append] at hcount
  rw [← hcount.buf,← hcount.length_ranges]
  exact ⟨SizesRight.small,fun ⟨he,hr⟩ => h.sizesRight he hr⟩

section TwoCalls

variable (data data' : List UInt8)

/-- The block 7, and 130 blocks in two entries so far behind it that they are in another range. -/
def twoCalls : List IndexEntry := [⟨7,1,data⟩,⟨70000,130,data'⟩]

theorem addAll_twoCalls (bs : ℕ) : ∃ b, (Builder.new bs).addAll (twoCalls data data') = .ok b := by
  obtain ⟨b₁,hfirst,hdata,hend,_⟩ := addBlocks_ok (b := .new bs) (o := 7) one_ne_zero
    (by simp [Builder.new]) (by simp [Builder.new]) data
  obtain ⟨b₂,hsecond,_⟩ := addBlocks_ok (b := b₁) (o := 70000) (n := 130) (by decide)
    (by rw [hdata]; simp [Builder.new]) (by omega) data'
  have hone : (Builder.new bs).addAll [⟨7,1,data⟩] = .ok b₁ :=
    (addAll_snoc (show (Builder.new bs).addAll [] = .ok _ from rfl) ⟨7,1,data⟩).trans hfirst
  exact ⟨b₂,(addAll_snoc hone ⟨70000,130,data'⟩).trans hsecond⟩

theorem entryStarts_twoCalls : entryStarts (twoCalls data data') = [7,70000,70127] := by
  simp [entryStarts,twoCalls,IndexEntry.entryStarts,List.range_succ]

theorem twoCalls_le : ∀ c ∈ twoCalls data data', c.offset+c.length ≤ 2^48 := by
  simp [twoCalls]

variable {data data'} {b : Builder} (codec : HeaderCodec)

theorem length_writeIndex_twoCalls {bs : ℕ}
    (hadd : (Builder.new bs).addAll (twoCalls data data') = .ok b) : b.writeIndex.length = 41 := by
  have hcount := (Counted.new bs).addAll_eq hadd
  rw [List.nil_append] at hcount
  rw [writeIndex,List.length_append,length_marshalRanges,hcount.length_ranges,hcount.buf,
    entryStarts_twoCalls]
  decide

theorem build_twoCalls (hadd : (Builder.new 512).addAll (twoCalls data data') = .ok b)
    (hlen : data.length = 512) (hlen' : data'.length = 130*512) :
    ∃ file, b.build codec = .ok file := by
  obtain ⟨gs,_,hsize,hentries⟩ := (Holds.new 512).addAll_eq (twoCalls_le data data') hadd
  have hbs : b.blockSize = 512 := hsize
  have hlist : b.entries = twoCalls data data' := by
    rw [hentries]
    simp [Builder.new,nonempty,twoCalls]
  refine build_ok codec (fun c hc => ?_) fun c hc => ?_
  · have hle : c.length ≤ 130 := by
      rw [hlist] at hc
      simp only [twoCalls,List.mem_cons,List.not_mem_nil,or_false] at hc
      rcases hc with rfl | rfl
      · exact Nat.le_add_left 1 129
      · exact le_rfl
    rw [hbs]
    omega
  · rw [hlist] at hc
    simp only [twoCalls,List.mem_cons,List.not_mem_nil,or_false] at hc
    rw [hbs]
    rcases hc with rfl | rfl
    · rw [hlen,Nat.one_mul]
    · exact hlen'

end TwoCalls

theorem sizesRight_two_calls : ∃ b file r,
    (Builder.new 512).addAll (twoCalls (List.replicate 512 1) (List.replicate (130*512) 2)) = .ok b ∧
    b.build wireCodec = .ok file ∧ load wireCodec file = .ok (.ok r) ∧ SizesRight wireCodec b := by
  have hlen : (List.replicate 512 (1 : UInt8)).length = 512 := List.length_replicate
  have hlen' : (List.replicate (130*512) (2 : UInt8)).length = 130*512 := List.length_replicate
  generalize List.replicate 512 (1 : UInt8) = data at *
  generalize List.replicate (130*512) (2 : UInt8) = data' at *
  obtain ⟨b,hadd⟩ := addAll_twoCalls data data' 512
  obtain ⟨file,hbuild⟩ := build_twoCalls wireCodec hadd hlen hlen'
  obtain ⟨gs,h,hsize,_⟩ := (Holds.new 512).addAll_eq (twoCalls_le data data') hadd
  have hindex := length_writeIndex_twoCalls hadd
  rw [writeIndex,List.length_append,length_marshalRanges,h.length_buf,h.ranges,
    List.length_map] at hindex
  have hbs : b.header.blockSize = 512 := by
    rw [header,hsize]
    rfl
  obtain ⟨bytes,_,rfl⟩ := (build_eq_ok wireCodec).mp hbuild
  have hload := h.load_eq wireCodec (by rintro rfl; simp at hindex) (by rw [hbs])
    (by rw [hbs]; norm_num) (by omega) (by omega) bytes
  exact ⟨b,_,_,hadd,hbuild,hload,(sizesRight_iff wireCodec hadd (twoCalls_le data data')).mpr
    (by rw [entryStarts_twoCalls]; decide)⟩

/-- With `2^40` blocks in one run the entries take more than `2^32` bytes. -/
theorem not_sizesRight_long_run :
    ∃ b, (Builder.new 512).addAll [⟨0,2^40,List.replicate (2^49) 0⟩] = .ok b ∧
      ¬SizesRight wireCodec b := by
  generalize List.replicate (2^49) (0 : UInt8) = data
  obtain ⟨b,hone,_⟩ := addBlocks_ok (b := .new 512) (o := 0) (n := 2^40) (by norm_num)
    (by simp [Builder.new]) (by simp [Builder.new]) data
  have hadd : (Builder.new 512).addAll [⟨0,2^40,data⟩] = .ok b :=
    (addAll_snoc (show (Builder.new 512).addAll [] = .ok _ from rfl) ⟨0,2^40,data⟩).trans hone
  refine ⟨b,hadd,fun hright => ?_⟩
  have hbuf := ((Counted.new 512).addAll_eq hadd).buf
  have hlen : (entryStarts [⟨0,2^40,data⟩]).length = (2^40+126)/127 := by
    rw [entryStarts,List.flatMap_cons,List.flatMap_nil,List.append_nil,IndexEntry.entryStarts,
      List.length_map,List.length_range]
  rw [List.nil_append,hlen] at hbuf
  have hlt := hright.small.1
  rw [hbuf] at hlt
  norm_num at hlt

end Sparse
end Logblock
