import Logblock.BlockLog
import Logblock.Metadata

/-! The dimensions of a device. `OpenBlockFileWithOptions` checks the block size and the number of
blocks one by one; the byte offsets of the blocks are their products, in `int64` arithmetic. -/
namespace Logblock

open Loop Bytes Wal Readers BlockLog BlockHoleReader

/-- `BlockOptions`: whether the stores are set, and the dimensions. A utilisation that is not a
number is `none`. -/
structure BlockOptions where
  blobStore : Bool
  logStore : Bool
  blockSize : ℤ
  numBlocks : ℤ
  targetTableSize : ℤ
  minTableUtilisation : Option ℚ

namespace BlockOptions

def defaultTargetTableSize : ℤ := 1024*1024*1024

def defaultMinTableUtilisation : ℚ := 1/2

def minTableSize : ℤ := 1024*1024

def maxTableSize : ℤ := 64*1024*1024*1024

def minBlockSize : ℤ := 512

def maxBlockSize : ℤ := 1024*1024

def maxBlocks : ℤ := 2^48

def setDefaultIfZero {α : Type} [DecidableEq α] [Zero α] (v defaultVal : α) : α :=
  if v = 0 then defaultVal else v

/-- The bounds are the `float64` values of 0.1 and 0.9. -/
def badUtilisation (u : ℚ) : Bool := u < 3602879701896397/2^55 || 8106479329266893/2^53 < u

/-- The checks of `OpenBlockFileWithOptions`, with the defaults set. -/
def check (opts : BlockOptions) : Except Error BlockOptions :=
  if opts.blobStore = false ∨ opts.logStore = false then
    .error (.new "BlobStore and LogStore must be non-nil")
  else if opts.blockSize < minBlockSize ∨ maxBlockSize < opts.blockSize then
    .error (.new s!"BlockSize must be between {minBlockSize} and {maxBlockSize}")
  else if opts.numBlocks < 0 ∨ maxBlocks < opts.numBlocks then
    .error (.new "opts.NumBlocks must between 0 and (1<<48)")
  else
    let opts := {opts with
      targetTableSize := setDefaultIfZero opts.targetTableSize defaultTargetTableSize
      minTableUtilisation :=
        opts.minTableUtilisation.map (setDefaultIfZero · defaultMinTableUtilisation)}
    if opts.targetTableSize < minTableSize ∨ maxTableSize < opts.targetTableSize then
      .error (.new "TargetTableSize must be between 1M and 64G")
    else if opts.minTableUtilisation.any badUtilisation then
      .error (.new "MinTableUtilisation must be between 0.1 and 0.9")
    else .ok opts

/-- The metadata of a new device. -/
def newMetadata (opts : BlockOptions) : Except Error Metadata :=
  if opts.numBlocks = 0 then .error (.new "device size must be specified on a new device")
  else if opts.blockSize = 0 then .error (.new "block size must be specified on a new device")
  else .ok ⟨(opts.blockSize%2^32).toNat,toU64 opts.numBlocks,[]⟩

/-- `OpenBlockFileWithOptions` when there is no metadata yet, up to the metadata. -/
def openNew (opts : BlockOptions) : Except Error Metadata := do
  (← opts.check).newMetadata

end BlockOptions

namespace Metadata

/-- `Size` of the device. -/
def size (m : Metadata) : ℤ := i64 (m.blockSize*i64 m.numBlocks)

end Metadata

namespace BlockOptions

theorem check_ok {opts opts' : BlockOptions} (h : opts.check = .ok opts') :
    minBlockSize ≤ opts'.blockSize ∧ opts'.blockSize ≤ maxBlockSize ∧ 0 ≤ opts'.numBlocks ∧
      opts'.numBlocks ≤ maxBlocks := by
  rw [check] at h
  split_ifs at h with _ hsize hblocks
  simp only at h
  split_ifs at h
  cases h
  simp only [not_or,not_lt] at hsize hblocks
  exact ⟨hsize.1,hsize.2,hblocks.1,hblocks.2⟩

/-- The defaults pass the checks that follow them. -/
theorem defaults_pass : ¬(defaultTargetTableSize < minTableSize ∨
      maxTableSize < defaultTargetTableSize) ∧
    badUtilisation defaultMinTableUtilisation = false := by
  refine ⟨by decide,?_⟩
  norm_num [badUtilisation,defaultMinTableUtilisation]

theorem openNew_ok {opts : BlockOptions} {m : Metadata} (h : opts.openNew = .ok m) :
    512 ≤ m.blockSize ∧ m.blockSize ≤ 2^20 ∧ 0 < m.numBlocks ∧ m.numBlocks ≤ 2^48 := by
  rw [openNew] at h
  cases hcheck : opts.check with
  | error e =>
    rw [hcheck] at h
    cases h
  | ok opts' =>
    rw [hcheck] at h
    obtain ⟨h₁,h₂,h₃,h₄⟩ := check_ok hcheck
    simp only [bind,Except.bind,newMetadata] at h
    split_ifs at h with hzero
    cases h
    unfold minBlockSize at h₁
    unfold maxBlockSize at h₂
    unfold maxBlocks at h₄
    have hn : opts'.numBlocks = (opts'.numBlocks.toNat : ℕ) := (Int.toNat_of_nonneg h₃).symm
    have hu : toU64 opts'.numBlocks = opts'.numBlocks.toNat := by
      rw [hn]
      exact toU64_natCast (by omega)
    simp only [hu]
    omega

end BlockOptions

/-- The logs that successful calls of `WriteBlocks` on the device leave. -/
inductive BlocksWritten (codec : Codec) (blockSize numBlocks : ℕ) : ReadableLog → Prop
  | new (rf : Option ℕ) : BlocksWritten codec blockSize numBlocks (.new rf)
  | write {l l' : ReadableLog} (buf : List UInt8) (off n : ℕ) (faults : Faults) :
      BlocksWritten codec blockSize numBlocks l → off+buf.length/blockSize ≤ numBlocks →
      l.writeBlocks codec blockSize buf off faults = .ok (l',n,none) →
      BlocksWritten codec blockSize numBlocks l'

/-- What `ReadBlocks` gives for the block `k`, with the log on top of the readers `ds`. -/
def readBlock {numBlocks : ℕ} (blockSize : ℕ) (l : ReadableLog)
    (ds : List (DeviceReader (List UInt8) numBlocks)) (k : ℕ) :
    Exec (ReadResult (List UInt8)) :=
  StackedBlockReader.readBlocks (List.replicate blockSize 0)
    ⟨l.reader.blocks blockSize::ds.map DeviceReader.reader,blockSize,numBlocks⟩ blockSize k

/-- No two blocks of the device share a byte: sizes and offsets are not wrapped, and a write
changes what is read at its own blocks only. -/
structure Unaliased (codec : Codec) (m : Metadata) : Prop where
  size : m.size = (m.blockSize*m.numBlocks : ℕ)
  offsets : ∀ off n : ℕ, off+n ≤ m.numBlocks →
    i64 ((off : ℤ)*m.blockSize) = (off*m.blockSize : ℕ) ∧
      i64 (i64 ((off : ℤ)*m.blockSize)+(n*m.blockSize : ℕ)) = ((off+n)*m.blockSize : ℕ)
  isolated : ∀ (l l' : ReadableLog) (buf : List UInt8) (off n : ℕ) (faults : Faults),
    BlocksWritten codec m.blockSize m.numBlocks l → off+buf.length/m.blockSize ≤ m.numBlocks →
    l.writeBlocks codec m.blockSize buf off faults = .ok (l',n,none) →
    ∀ (ds : List (DeviceReader (List UInt8) m.numBlocks)) (k : ℕ), k < m.numBlocks →
      ¬(off ≤ k ∧ k < off+buf.length/m.blockSize) →
      readBlock m.blockSize l' ds k = readBlock m.blockSize l ds k

section Dimensions

variable {codec : Codec} {blockSize numBlocks : ℕ}

theorem BlocksWritten.holds {l : ReadableLog} (h : BlocksWritten codec blockSize numBlocks l)
    (hbs : 0 < blockSize) (hsmall : numBlocks*blockSize < 2^63) :
    ∃ ops, Holds codec blockSize numBlocks l ops := by
  induction h with
  | new rf => exact ⟨[],Holds.new codec blockSize numBlocks rf⟩
  | write buf off n faults _ hin hcall ih =>
    obtain ⟨ops,hops⟩ := ih
    obtain ⟨_,ops',hops',_⟩ := hops.writeBlocks hbs hsmall hin hcall
    exact ⟨ops',hops'⟩

/-- The log as a reader of the device. -/
def deviceReader {l : ReadableLog} {ops : List Op} (h : Holds codec blockSize numBlocks l ops)
    (hbs : 0 < blockSize) (hsmall : numBlocks*blockSize < 2^63) :
    DeviceReader (List UInt8) numBlocks where
  reader := l.reader.blocks blockSize
  data := blockAt blockSize (stored ops)
  meets := (h.clean hbs hsmall).toMeets
  bounded _ hk := h.onDevice.bounded hk

theorem readBlock_eq {l : ReadableLog} {ops : List Op} (h : Holds codec blockSize numBlocks l ops)
    (hbs : 0 < blockSize) (hsmall : numBlocks*blockSize < 2^63)
    (ds : List (DeviceReader (List UInt8) numBlocks)) {k : ℕ} (hk : k < numBlocks) :
    readBlock blockSize l ds k =
      .ok ⟨[((blockAt blockSize (stored ops) k).or (top (ds.map DeviceReader.layer) k)).getD
        (List.replicate blockSize 0)],1,none⟩ := by
  have hread := readBlocks_device (List.replicate blockSize 0) (deviceReader h hbs hsmall::ds)
    (List.cons_ne_nil _ _) blockSize hbs 1 k
  rw [Nat.one_mul,Nat.min_eq_left (show 1 ≤ numBlocks-k by omega),if_neg (lt_irrefl 1)] at hread
  exact hread

/-- A write changes what is read at its own blocks only. -/
theorem Unaliased.of_lt {m : Metadata} (hbs : 0 < m.blockSize)
    (hsmall : m.numBlocks*m.blockSize < 2^63) : Unaliased codec m := by
  refine ⟨?_,fun off n hle => ?_,?_⟩
  · have hn : i64 (m.numBlocks : ℤ) = m.numBlocks := by
      have := Nat.le_mul_of_pos_right m.numBlocks hbs
      exact i64_of_range (by omega) (by omega)
    rw [Metadata.size,hn,← Nat.cast_mul,Nat.mul_comm]
    exact i64_of_range (by omega) (by omega)
  · obtain ⟨hi,_⟩ := i64_offset hsmall (le_trans (Nat.le_add_right off n) hle)
    obtain ⟨hi',_⟩ := i64_offset hsmall hle
    refine ⟨hi,?_⟩
    rw [hi,← Nat.cast_add,← Nat.add_mul,Nat.cast_mul]
    exact hi'
  · intro l l' buf off n faults hl hin hcall ds k hk hout
    obtain ⟨ops,hops⟩ := hl.holds hbs hsmall
    obtain ⟨_,ops',hops',hdata⟩ := hops.writeBlocks hbs hsmall hin hcall
    rw [readBlock_eq hops' hbs hsmall ds hk,readBlock_eq hops hbs hsmall ds hk,hdata,putBlocks,
      if_neg hout]

/-- Of the devices whose options are accepted, those with less than `2^63` bytes have blocks of
their own. -/
theorem unaliased_iff {opts : BlockOptions} {m : Metadata} (h : opts.openNew = .ok m) :
    Unaliased codec m ↔ m.numBlocks*m.blockSize < 2^63 := by
  obtain ⟨hbs,_⟩ := BlockOptions.openNew_ok h
  constructor
  · intro hu
    have hsize := hu.size
    have hlt := i64_lt (m.blockSize*i64 m.numBlocks)
    rw [Metadata.size] at hsize
    rw [hsize,Nat.mul_comm] at hlt
    exact_mod_cast hlt
  · exact Unaliased.of_lt (by omega)

end Dimensions

/-- Options with the defaults for the tables. -/
def withBlocks (blockSize numBlocks : ℤ) : BlockOptions := ⟨true,true,blockSize,numBlocks,0,some 0⟩

theorem openNew_withBlocks {blockSize numBlocks : ℕ} (h₁ : 512 ≤ blockSize) (h₂ : blockSize ≤ 2^20)
    (h₃ : 0 < numBlocks) (h₄ : numBlocks ≤ 2^48) :
    (withBlocks blockSize numBlocks).openNew = .ok ⟨blockSize,numBlocks,[]⟩ := by
  have hcheck : (withBlocks blockSize numBlocks).check = .ok ⟨true,true,blockSize,numBlocks,
      BlockOptions.defaultTargetTableSize,some BlockOptions.defaultMinTableUtilisation⟩ := by
    rw [BlockOptions.check,withBlocks,if_neg (by simp),
      if_neg (by unfold BlockOptions.minBlockSize BlockOptions.maxBlockSize; simp only; omega),
      if_neg (by unfold BlockOptions.maxBlocks; simp only; omega)]
    simp only [BlockOptions.setDefaultIfZero,if_true,Option.map_some,Option.any_some]
    rw [if_neg BlockOptions.defaults_pass.1,BlockOptions.defaults_pass.2,if_neg (by simp)]
  have hmod : ((blockSize : ℤ)%2^32).toNat = blockSize := by omega
  rw [BlockOptions.openNew,hcheck]
  simp only [bind,Except.bind,BlockOptions.newMetadata]
  rw [if_neg (by omega),if_neg (by omega),hmod,toU64_natCast (by omega)]

theorem unaliased_four_kilobytes : (withBlocks 4096 (2^48)).openNew = .ok ⟨4096,2^48,[]⟩ ∧
    Unaliased wireCodec ⟨4096,2^48,[]⟩ :=
  have hopen : (withBlocks 4096 (2^48)).openNew = .ok ⟨4096,2^48,[]⟩ :=
    openNew_withBlocks (by norm_num) (by norm_num) (by norm_num) (by norm_num)
  ⟨hopen,(unaliased_iff hopen).mpr (by norm_num)⟩

section OneBlock

variable {β : Type} {zero b : β} {numBlocks k : ℕ} {tr : BlockHoleReader β}
  {rs : List (BlockHoleReader β)}

/-- A block of the first reader. -/
theorem readBlocksFrom_one (hk : k < numBlocks) (hhole : k < (tr.nextBlockHole k).1)
    (hread : tr.readBlocks 1 k = ([b],none)) :
    readBlocksFrom zero numBlocks (tr::rs) 1 k = .ok ⟨[b],1,none⟩ := by
  have hmin : min 1 ((tr.nextBlockHole k).1-k) = 1 := by omega
  have hpass : readPass numBlocks tr (readBlocksFrom zero numBlocks rs) ⟨1,k,0,[]⟩ =
      .ok (.inr ⟨[b],1,none⟩) := by
    simp only [readPass,hmin,hread]
    rw [if_neg (by simp),if_neg (by omega),if_pos hhole]
    simp
  exact run_done hpass 1

/-- A block that the first reader has no data for, nor any behind it. -/
theorem readBlocksFrom_one_below (hk : k < numBlocks) (hhole : (tr.nextBlockHole k).1 ≤ k)
    (hdata : (tr.nextBlockData k).2 = some .eof)
    (hbelow : readBlocksFrom zero numBlocks rs 1 k = .ok ⟨[b],1,none⟩) :
    readBlocksFrom zero numBlocks (tr::rs) 1 k = .ok ⟨[b],1,none⟩ := by
  have hmin : min 1 (numBlocks-k) = 1 := by omega
  have hpass : readPass numBlocks tr (readBlocksFrom zero numBlocks rs) ⟨1,k,0,[]⟩ =
      .ok (.inl ⟨0,k+1,1,[b]⟩) := by
    simp only [readPass,readGap,hdata,if_true]
    rw [if_neg (by simp),if_neg (by omega),if_neg (by omega),if_neg (by simp),
      if_neg (by omega),hmin,hbelow]
    rfl
  have hdone : readPass numBlocks tr (readBlocksFrom zero numBlocks rs) ⟨0,k+1,1,[b]⟩ =
      .ok (.inr ⟨[b],1,none⟩) := if_pos rfl
  exact (run_next hpass 1).trans (run_done hdone 0)

end OneBlock

/-- A write whose byte offset wraps to 0 lands in the block 0. -/
theorem writeBlocks_wrapped (codec : Codec) {blockSize off : ℕ} (hbs : 0 < blockSize)
    (hmax : blockSize ≤ maxWriteSize) (hwrap : i64 ((off : ℤ)*blockSize) = 0) (b : UInt8) :
    ∃ l', (ReadableLog.new none).writeBlocks codec blockSize (List.replicate blockSize b) off
        ⟨none,none⟩ = .ok (l',1,none) ∧
      ∃ ops, Holds codec blockSize 1 l' ops ∧
        blockAt blockSize (stored ops) 0 = some (List.replicate blockSize b) := by
  let wr : Write := ⟨0,List.replicate blockSize b,by norm_num,by simpa using hbs,by simpa using hmax⟩
  have hsmall : (opsLog codec ([]++[.write wr])).length < 2^63 := by
    have hle := length_opsLog_le codec ([]++[.write wr])
    have hlen : (Op.write wr).entry.len = 16+wr.data.length := wr.entry_len
    have hdata := wr.data_le
    unfold maxWriteSize at hdata
    simp only [List.nil_append,List.map_cons,List.map_nil,List.sum_cons,List.sum_nil,hlen] at hle ⊢
    omega
  obtain ⟨w',f',hcall⟩ := (Kept.new codec none).exists_writeAt hsmall
  have hkept := (Kept.new codec none).writeAt_ok hcall
  have hlen : (List.replicate blockSize b).length = blockSize := List.length_replicate
  refine ⟨⟨w',f'⟩,?_,[]++[.write wr],⟨hkept,?_⟩,?_⟩
  · rw [ReadableLog.writeBlocks,if_neg (by simp),hwrap,ReadableLog.new]
    rw [show (Writer.new none).writeAt codec .empty (List.replicate blockSize b) 0 ⟨none,none⟩ = _
      from hcall]
    simp only [bind,Except.bind,wr,hlen,Nat.div_self hbs]
  · intro op hop
    rw [List.mem_singleton.mp hop]
    refine ⟨Nat.dvd_zero _,?_,?_⟩
    · rw [show (Op.write wr).length = blockSize from hlen]
    · rw [show (Op.write wr).length = blockSize from hlen,show (Op.write wr).off = 0 from rfl]
      omega
  · rw [blockAt_write hbs (show wr.off = 0*blockSize by simp [wr]) (by simp [wr]),putBlocks,
      if_pos (by simp [wr,Nat.div_self hbs])]
    simp [wr]

/-- A log with data in the block 0 only, read at that block. -/
theorem readBlock_zero {codec : Codec} {blockSize numBlocks : ℕ} {l : ReadableLog} {ops : List Op}
    (h : Holds codec blockSize 1 l ops) (hbs : 0 < blockSize) (hsmall : blockSize < 2^63)
    (hpos : 0 < numBlocks) :
    readBlock blockSize l ([] : List (DeviceReader (List UInt8) numBlocks)) 0 =
      .ok ⟨[(blockAt blockSize (stored ops) 0).getD (List.replicate blockSize 0)],1,none⟩ := by
  have hclean := h.clean hbs (by omega)
  obtain ⟨y,hhole,_,hy,hrun⟩ := hclean.nextBlockHole_eq 0
  rw [upTo_nextBlockHole _ (Nat.zero_le 1)] at hhole
  have hone := StackedBlockReader.readBlocks_of_aligned (List.replicate blockSize 0)
    ⟨[l.reader.blocks blockSize],blockSize,numBlocks⟩ hbs 1 0
  rw [Nat.one_mul] at hone
  refine Eq.trans hone ?_
  cases hdata : blockAt blockSize (stored ops) 0 with
  | some b =>
    have hne : y ≠ 0 := by
      rintro rfl
      rw [hdata] at hy
      cases hy
    have hin : ∀ x, 0 ≤ x → x < 0+1 → blockAt blockSize (stored ops) x ≠ none := by
      intro x _ hx
      rw [show x = 0 by omega,hdata]
      simp
    obtain ⟨bs,hread,hbs'⟩ := hclean.readBlocks_eq hin
    rw [upTo_readBlocks _ (Nat.zero_le 1)] at hread
    have hb : bs = [b] := by
      simpa [BlockHoleReader.blocks,hdata,List.map_eq_singleton_iff] using hbs'
    rw [hb] at hread
    exact readBlocksFrom_one hpos (by rw [hhole]; omega) hread
  | none =>
    have hle : y ≤ 0 := by
      by_contra hlt
      exact hrun 0 le_rfl (by omega) hdata
    refine readBlocksFrom_one_below hpos (by rw [hhole]; exact hle) ?_ rfl
    rcases hclean.nextBlockData_eq 0 with ⟨z,hnext,_,hz,_⟩ | ⟨z,hnext,_⟩
    · rcases Nat.eq_zero_or_pos z with rfl | hz'
      · exact absurd hdata hz
      · exact absurd (h.onDevice.bounded hz') hz
    · rw [upTo_nextBlockData _ (Nat.zero_le 1)] at hnext
      rw [hnext]

/-- The largest block size and number of blocks are accepted, but the block `2^44` has the bytes of
the block 0. -/
theorem write_changes_first_block : (withBlocks (2^20) (2^48)).openNew = .ok ⟨2^20,2^48,[]⟩ ∧
    ∃ l', (ReadableLog.new none).writeBlocks wireCodec (2^20) (List.replicate (2^20) 1)
        (2^44 : ℕ) ⟨none,none⟩ = .ok (l',1,none) ∧
      readBlock (2^20) (.new none) ([] : List (DeviceReader (List UInt8) (2^48))) 0 =
        .ok ⟨[List.replicate (2^20) 0],1,none⟩ ∧
      readBlock (2^20) l' ([] : List (DeviceReader (List UInt8) (2^48))) 0 =
        .ok ⟨[List.replicate (2^20) 1],1,none⟩ := by
  have hopen : (withBlocks (2^20) (2^48)).openNew = .ok ⟨2^20,2^48,[]⟩ :=
    openNew_withBlocks (by norm_num) (by norm_num) (by norm_num) (by norm_num)
  have hwrap : i64 (((2^44 : ℕ) : ℤ)*((2^20 : ℕ) : ℤ)) = 0 := by
    unfold i64
    norm_num
  obtain ⟨l',hcall,ops,hops,hdata⟩ := writeBlocks_wrapped wireCodec
    (show 0 < 2^20 by norm_num) (by norm_num [maxWriteSize]) hwrap 1
  refine ⟨hopen,l',hcall,?_,?_⟩
  · exact readBlock_zero (Holds.new wireCodec (2^20) 1 none) (by norm_num) (by norm_num)
      (by norm_num)
  · rw [readBlock_zero hops (by norm_num) (by norm_num) (by norm_num),hdata]
    rfl

end Logblock
