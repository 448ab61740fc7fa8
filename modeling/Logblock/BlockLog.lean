import Logblock.StackedReader
import Logblock.WalTrim

/-! Blocks over a log. `adaptor.BlockReadWriter` turns block numbers into byte offsets, in `int64`
arithmetic. Where the bytes of the device have `int64` offsets, a log of whole blocks is a reader
of these blocks. -/
namespace Logblock
namespace BlockLog

open Loop Bytes Runs Wal BlockHoleReader

/-- `t.HoleReaderAt`, with the faults of its methods. -/
structure HoleReaderAt where
  readAt : ℕ → ℤ → Exec (List UInt8 × Option Error)
  nextData : ℤ → Exec (ℤ × Option Error)
  nextHole : ℤ → Exec (ℤ × Option Error)

namespace HoleReaderAt

variable (r : HoleReaderAt) (blockSize : ℕ)

/-- `ReadBlocks` into `len` bytes: the bytes filled, the blocks counted, and the error. -/
def readBlocks (len : ℕ) (off : ℤ) : Exec (List UInt8 × ℕ × Option Error) :=
  if len%blockSize ≠ 0 then
    .ok ([],0,some (.new s!"BlockReader: invalid read size {len}, block size {blockSize}"))
  else do
    let (buf,err) ← r.readAt len (i64 (off*blockSize))
    .ok (buf,buf.length/blockSize,err)

def nextBlockData (off : ℤ) : Exec (ℤ × Option Error) := do
  let (nextOff,err) ← r.nextData (i64 (off*blockSize))
  .ok (nextOff.tdiv blockSize,err)

def nextBlockHole (off : ℤ) : Exec (ℤ × Option Error) := do
  let (nextOff,err) ← r.nextHole (i64 (off*blockSize))
  .ok (nextOff.tdiv blockSize,err)

end HoleReaderAt

/-- The first `n` blocks of the bytes. -/
def cut (blockSize : ℕ) : ℕ → List UInt8 → List (List UInt8)
  | 0, _ => []
  | n+1, buf => buf.take blockSize::cut blockSize n (buf.drop blockSize)

/-- The adaptor as a `t.BlockHoleReader`. A fault of the reader is no answer at all. -/
def HoleReaderAt.blocks (r : HoleReaderAt) (blockSize : ℕ) : BlockHoleReader (List UInt8) where
  readBlocks n off :=
    match r.readBlocks blockSize (n*blockSize) off with
    | .ok (buf,count,err) => (cut blockSize count buf,err)
    | .error e => ([],some (.new (reprStr e)))
  nextBlockData off :=
    match r.nextBlockData blockSize off with
    | .ok (next,err) => (next.toNat,err)
    | .error e => (0,some (.new (reprStr e)))
  nextBlockHole off :=
    match r.nextBlockHole blockSize off with
    | .ok (next,err) => (next.toNat,err)
    | .error e => (0,some (.new (reprStr e)))

/-- `wal.ReadableLog`: the writer and the file that it appends to. -/
structure ReadableLog where
  w : Writer
  file : File

namespace ReadableLog

def new (rf : Option ℕ) : ReadableLog := ⟨.new rf,.empty⟩

def reader (l : ReadableLog) : HoleReaderAt where
  readAt n off := l.w.readAtFrom l.file.bytes n off
  nextData off := .ok (l.w.nextData off)
  nextHole off := .ok (l.w.nextHole off)

/-- `WriteBlocks` of the adaptor. -/
def writeBlocks (codec : Codec) (blockSize : ℕ) (l : ReadableLog) (buf : List UInt8) (off : ℤ)
    (faults : Faults) : Exec (ReadableLog × ℕ × Option Error) :=
  if buf.length%blockSize ≠ 0 then
    .ok (l,0,some (.new
      s!"BlockReadWriter: invalid write size {buf.length}, block size {blockSize}"))
  else do
    let (w,file,n,err) ← l.w.writeAt codec l.file buf (i64 (off*blockSize)) faults
    .ok (⟨w,file⟩,n/blockSize,err)

end ReadableLog

section Cut

variable {blockSize : ℕ} (g : ℕ → UInt8)

theorem cut_range' (n k : ℕ) :
    cut blockSize n ((List.range' (k*blockSize) (n*blockSize)).map g) =
      (List.range' k n).map fun j => (List.range' (j*blockSize) blockSize).map g := by
  induction n generalizing k with
  | zero => rfl
  | succ n ih =>
    have hsplit : List.range' (k*blockSize) ((n+1)*blockSize) =
        List.range' (k*blockSize) blockSize++List.range' ((k+1)*blockSize) (n*blockSize) := by
      rw [Nat.add_mul k,Nat.one_mul,List.range'_append_1,Nat.add_mul,Nat.one_mul,Nat.add_comm]
    have hlen : ((List.range' (k*blockSize) blockSize).map g).length = blockSize := by simp
    rw [hsplit,List.map_append,cut,List.take_left' hlen,List.drop_left' hlen,ih,List.range'_succ,
      List.map_cons]

end Cut

/-- The reader serves the bytes `c`, of which there are none from `stop` on. -/
structure HoleReaderAt.Serves (r : HoleReaderAt) (c : ℕ → Option UInt8) (stop : ℕ) : Prop where
  readAt : ∀ n off : ℕ, off < 2^63 → r.readAt n off = .ok (readResult c stop n off)
  nextData : ∀ off : ℕ, off < 2^63 → ∃ o, LeastFrom (fun x => c x ≠ none) off o ∧
    r.nextData off = .ok (match o with | none => (0,some .eof) | some y => ((y : ℤ),none))
  nextHole : ∀ off : ℕ, off < 2^63 → ∃ y, LeastFrom (fun x => c x = none) off (some y) ∧
    r.nextHole off = .ok ((y : ℤ),none)
  ends : ∀ x, stop ≤ x → c x = none

/-- A block is there as a whole or not at all. -/
def WholeBlocks (blockSize : ℕ) (c : ℕ → Option UInt8) : Prop :=
  ∀ x, c x = none ↔ c (x/blockSize*blockSize) = none

/-- The block `k` of the bytes `c`. -/
def blockAt (blockSize : ℕ) (c : ℕ → Option UInt8) (k : ℕ) : Option (List UInt8) :=
  if c (k*blockSize) = none then none
  else some ((List.range' (k*blockSize) blockSize).map fun x => (c x).getD 0)

section Blocks

variable {r : HoleReaderAt} {c : ℕ → Option UInt8} {stop blockSize numBlocks : ℕ}

theorem blockAt_eq_none {k : ℕ} : blockAt blockSize c k = none ↔ c (k*blockSize) = none := by
  rw [blockAt]
  split_ifs with h
  · simp [h]
  · simp [h]

theorem WholeBlocks.eq_none (h : WholeBlocks blockSize c) (x : ℕ) :
    c x = none ↔ blockAt blockSize c (x/blockSize) = none := by
  rw [blockAt_eq_none]
  exact h x

/-- The offset of a block on the device is not wrapped. -/
theorem i64_offset (hsmall : numBlocks*blockSize < 2^63) {off : ℕ} (hle : off ≤ numBlocks) :
    i64 ((off : ℤ)*blockSize) = (off*blockSize : ℕ) ∧ off*blockSize < 2^63 := by
  have hlt : off*blockSize < 2^63 := lt_of_le_of_lt (Nat.mul_le_mul_right blockSize hle) hsmall
  refine ⟨?_,hlt⟩
  rw [← Nat.cast_mul]
  exact i64_of_range (by omega) (by omega)

theorem toNat_tdiv (hbs : 0 < blockSize) (k : ℕ) :
    (((k*blockSize : ℕ) : ℤ).tdiv blockSize).toNat = k := by
  rw [← Int.ofNat_tdiv,Nat.mul_div_cancel k hbs,Int.toNat_natCast]

theorem HoleReaderAt.Serves.nextBlockHole_eq (h : r.Serves c stop) (hbs : 0 < blockSize)
    (hwhole : WholeBlocks blockSize c) (hsmall : numBlocks*blockSize < 2^63) {off : ℕ}
    (hle : off ≤ numBlocks) : ∃ k, LeastFrom (fun x => blockAt blockSize c x = none) off (some k) ∧
      (r.blocks blockSize).nextBlockHole off = (k,none) := by
  obtain ⟨hi,hlt⟩ := i64_offset hsmall hle
  obtain ⟨y,hy,hcall⟩ := h.nextHole (off*blockSize) hlt
  obtain ⟨k,rfl,hk⟩ := LeastFrom.of_blocks (P := fun x => blockAt blockSize c x = none) hbs
    (hy.congr hwhole.eq_none)
  refine ⟨k,hk,?_⟩
  have heq : r.nextBlockHole blockSize off = .ok (((k*blockSize : ℕ) : ℤ).tdiv blockSize,none) := by
    rw [HoleReaderAt.nextBlockHole,hi,hcall]
    rfl
  simp only [HoleReaderAt.blocks,heq,toNat_tdiv hbs]

theorem HoleReaderAt.Serves.nextBlockData_eq (h : r.Serves c stop) (hbs : 0 < blockSize)
    (hwhole : WholeBlocks blockSize c) (hsmall : numBlocks*blockSize < 2^63) {off : ℕ}
    (hle : off ≤ numBlocks) :
    (∃ k, LeastFrom (fun x => blockAt blockSize c x ≠ none) off (some k) ∧
      (r.blocks blockSize).nextBlockData off = (k,none)) ∨
    LeastFrom (fun x => blockAt blockSize c x ≠ none) off none ∧
      (r.blocks blockSize).nextBlockData off = (0,some .eof) := by
  obtain ⟨hi,hlt⟩ := i64_offset hsmall hle
  obtain ⟨o,ho,hcall⟩ := h.nextData (off*blockSize) hlt
  have hblocks := ho.congr fun z => not_congr (hwhole.eq_none z)
  cases o with
  | none =>
    have heq : r.nextBlockData blockSize off = .ok ((0 : ℤ).tdiv blockSize,some .eof) := by
      rw [HoleReaderAt.nextBlockData,hi,hcall]
      rfl
    refine .inr ⟨LeastFrom.of_blocks_none hbs hblocks,?_⟩
    simp only [HoleReaderAt.blocks,heq,Int.zero_tdiv,Int.toNat_zero]
  | some y =>
    obtain ⟨k,rfl,hk⟩ := LeastFrom.of_blocks (P := fun x => blockAt blockSize c x ≠ none) hbs
      hblocks
    have heq : r.nextBlockData blockSize off =
        .ok (((k*blockSize : ℕ) : ℤ).tdiv blockSize,none) := by
      rw [HoleReaderAt.nextBlockData,hi,hcall]
      rfl
    refine .inl ⟨k,hk,?_⟩
    simp only [HoleReaderAt.blocks,heq,toNat_tdiv hbs]

/-- A read inside the data fills its blocks. -/
theorem HoleReaderAt.Serves.readBlocks_eq (h : r.Serves c stop) (hbs : 0 < blockSize)
    (hwhole : WholeBlocks blockSize c) (hsmall : numBlocks*blockSize < 2^63) {n off : ℕ}
    (hle : off ≤ numBlocks)
    (hd : ∀ x, off ≤ x → x < off+n → blockAt blockSize c x ≠ none) :
    (r.blocks blockSize).readBlocks n off =
      ((List.range' off n).map fun j =>
        (List.range' (j*blockSize) blockSize).map fun x => (c x).getD 0,none) := by
  obtain ⟨hi,hlt⟩ := i64_offset hsmall hle
  have hmin : min (n*blockSize) (stop-off*blockSize) = n*blockSize := by
    rcases Nat.eq_zero_or_pos n with rfl | hn
    · simp
    · have hlast := mt (hwhole.eq_none ((off+n)*blockSize-1)).mp (by
        have hdiv : ((off+n)*blockSize-1)/blockSize = off+n-1 := by
          have hsplit : (off+n)*blockSize-1 = (blockSize-1)+(off+n-1)*blockSize := by
            have : (off+n)*blockSize = (off+n-1)*blockSize+blockSize := by
              rw [← Nat.succ_mul,Nat.succ_eq_add_one,Nat.sub_add_cancel (by omega)]
            omega
          rw [hsplit,Nat.add_mul_div_right _ _ hbs,Nat.div_eq_of_lt (by omega),Nat.zero_add]
        rw [hdiv]
        exact hd _ (by omega) (by omega))
      have hstop : (off+n)*blockSize-1 < stop := by
        by_contra hge
        exact hlast (h.ends _ (by omega))
      have : (off+n)*blockSize = off*blockSize+n*blockSize := Nat.add_mul _ _ _
      omega
  have hread := h.readAt (n*blockSize) (off*blockSize) hlt
  rw [readResult,hmin,if_neg (lt_irrefl _)] at hread
  have heq : r.readBlocks blockSize (n*blockSize) off =
      .ok ((List.range' (off*blockSize) (n*blockSize)).map fun x => (c x).getD 0,n,none) := by
    rw [HoleReaderAt.readBlocks,if_neg (by simp),hi,hread]
    simp only [bind,Except.bind,List.length_map,List.length_range',Nat.mul_div_cancel n hbs]
  simp only [HoleReaderAt.blocks,heq]
  rw [cut_range']

/-- On a device with `int64` byte offsets the adaptor is a reader of blocks. -/
theorem HoleReaderAt.Serves.clean (h : r.Serves c stop) (hbs : 0 < blockSize)
    (hwhole : WholeBlocks blockSize c) (hsmall : numBlocks*blockSize < 2^63)
    (hin : ∀ x, numBlocks*blockSize ≤ x → c x = none) :
    ((r.blocks blockSize).upTo numBlocks).Clean (blockAt blockSize c) := by
  have hend : ∀ k, numBlocks ≤ k → blockAt blockSize c k = none := fun k hk =>
    blockAt_eq_none.mpr (hin _ (Nat.mul_le_mul_right blockSize hk))
  have hread : ∀ n off, (∀ x, off ≤ x → x < off+n → blockAt blockSize c x ≠ none) →
      ∃ bs, ((r.blocks blockSize).upTo numBlocks).readBlocks n off = (bs,none) ∧
        bs.map some = BlockHoleReader.blocks (blockAt blockSize c) off n := by
    intro n off hd
    by_cases hle : off ≤ numBlocks
    · refine ⟨_,(upTo_readBlocks _ hle n).trans (h.readBlocks_eq hbs hwhole hsmall hle hd),?_⟩
      rw [List.map_map]
      refine List.map_congr_left fun j hj => ?_
      obtain ⟨h₁,h₂⟩ := List.mem_range'_1.mp hj
      rw [blockAt,if_neg (mt blockAt_eq_none.mpr (hd j h₁ h₂))]
      rfl
    · have hn : n = 0 := by
        by_contra hpos
        exact hd off le_rfl (by omega) (hend off (by omega))
      subst hn
      exact ⟨[],if_neg hle,rfl⟩
  have hhole : ∀ off, ∃ k, LeastFrom (fun x => blockAt blockSize c x = none) off (some k) ∧
      ((r.blocks blockSize).upTo numBlocks).nextBlockHole off = (k,none) := by
    intro off
    by_cases hle : off ≤ numBlocks
    · rw [upTo_nextBlockHole _ hle]
      exact h.nextBlockHole_eq hbs hwhole hsmall hle
    · exact ⟨off,⟨le_rfl,hend off (by omega),fun z h₁ h₂ => by omega⟩,if_neg hle⟩
  have hdata : ∀ off, (∃ k, LeastFrom (fun x => blockAt blockSize c x ≠ none) off (some k) ∧
      ((r.blocks blockSize).upTo numBlocks).nextBlockData off = (k,none)) ∨
      ∃ k, LeastFrom (fun x => blockAt blockSize c x ≠ none) off none ∧
        ((r.blocks blockSize).upTo numBlocks).nextBlockData off = (k,some .eof) := by
    intro off
    by_cases hle : off ≤ numBlocks
    · rw [upTo_nextBlockData _ hle]
      exact (h.nextBlockData_eq hbs hwhole hsmall hle).imp_right fun hk => ⟨0,hk⟩
    · exact .inr ⟨0,fun z hz hne => hne (hend z (by omega)),if_neg hle⟩
  refine Clean.of_answers hhole hdata hread fun x hx => hend x ?_
  have := Nat.le_mul_of_pos_right numBlocks hbs
  omega

end Blocks

/-- The operations write whole blocks of the device. -/
def OnDevice (blockSize numBlocks : ℕ) (ops : List Op) : Prop :=
  ∀ op ∈ ops, blockSize ∣ op.off ∧ blockSize ∣ op.length ∧ op.off+op.length ≤ numBlocks*blockSize

section Log

variable {codec : Codec} {blockSize numBlocks : ℕ} {l l' : ReadableLog} {ops : List Op}

/-- A range of whole blocks holds a byte together with its block. -/
theorem in_blocks_iff (hbs : 0 < blockSize) {off length : ℕ} (hoff : blockSize ∣ off)
    (hlength : blockSize ∣ length) (x : ℕ) : off ≤ x ∧ x < off+length ↔
      off/blockSize ≤ x/blockSize ∧ x/blockSize < off/blockSize+length/blockSize := by
  obtain ⟨a,rfl⟩ := hoff
  obtain ⟨n,rfl⟩ := hlength
  rw [← Nat.mul_add,Nat.mul_div_cancel_left a hbs,Nat.mul_div_cancel_left n hbs,
    Nat.le_div_iff_mul_le hbs,Nat.div_lt_iff_lt_mul hbs,Nat.mul_comm a,Nat.mul_comm (a+n)]

theorem OnDevice.whole (h : OnDevice blockSize numBlocks ops) (hbs : 0 < blockSize) :
    WholeBlocks blockSize (stored ops) := by
  intro x
  rw [← not_iff_not,← ne_eq,← ne_eq,stored_ne_none,stored_ne_none]
  refine exists_congr fun op => and_congr_right fun hop => ?_
  obtain ⟨hoff,hlength,_⟩ := h op hop
  rw [in_blocks_iff hbs hoff hlength,in_blocks_iff hbs hoff hlength,
    Nat.mul_div_cancel _ hbs]

theorem OnDevice.ends (h : OnDevice blockSize numBlocks ops) {x : ℕ}
    (hx : numBlocks*blockSize ≤ x) : stored ops x = none := by
  by_contra hne
  obtain ⟨op,hop,_,hlt⟩ := stored_ne_none.mp hne
  have := (h op hop).2.2
  omega

theorem serves_of_readsLike (h : ReadsLike codec l.w l.file ops)
    (hends : ∀ op ∈ ops, op.off+op.length < 2^63) :
    l.reader.Serves (stored ops) l.w.size.toNat := by
  have hback := h.readsBack hends
  obtain ⟨_,_,hsize⟩ := h.readable
  refine ⟨hback.readAt,fun off hoff => ?_,fun off hoff => ?_,?_⟩
  · obtain ⟨o,ho,heq⟩ := hback.nextData off hoff
    exact ⟨o,ho,congrArg Except.ok heq⟩
  · obtain ⟨y,hy,heq⟩ := hback.nextHole off hoff
    exact ⟨y,hy,congrArg Except.ok heq⟩
  · rw [Writer.size,hsize]
    exact (opsEnd_spec hends).1

/-- A log of whole blocks of the device is a reader of these blocks. -/
theorem clean_of_readsLike (h : ReadsLike codec l.w l.file ops)
    (hops : OnDevice blockSize numBlocks ops) (hbs : 0 < blockSize)
    (hsmall : numBlocks*blockSize < 2^63) :
    ((l.reader.blocks blockSize).upTo numBlocks).Clean (blockAt blockSize (stored ops)) := by
  have hends : ∀ op ∈ ops, op.off+op.length < 2^63 := fun op hop =>
    lt_of_le_of_lt (hops op hop).2.2 hsmall
  exact (serves_of_readsLike h hends).clean hbs (hops.whole hbs) hsmall fun x hx => hops.ends hx

theorem OnDevice.bounded (h : OnDevice blockSize numBlocks ops) {k : ℕ} (hk : numBlocks ≤ k) :
    blockAt blockSize (stored ops) k = none :=
  blockAt_eq_none.mpr (h.ends (Nat.mul_le_mul_right blockSize hk))

/-- A log with the blocks of `ops`. -/
structure Holds (codec : Codec) (blockSize numBlocks : ℕ) (l : ReadableLog) (ops : List Op) :
    Prop where
  kept : Kept codec l.w l.file ops
  onDevice : OnDevice blockSize numBlocks ops

theorem Holds.new (codec : Codec) (blockSize numBlocks : ℕ) (rf : Option ℕ) :
    Holds codec blockSize numBlocks (.new rf) [] :=
  ⟨Kept.new codec rf,fun _ hop => by cases hop⟩

theorem Holds.clean (h : Holds codec blockSize numBlocks l ops) (hbs : 0 < blockSize)
    (hsmall : numBlocks*blockSize < 2^63) :
    ((l.reader.blocks blockSize).upTo numBlocks).Clean (blockAt blockSize (stored ops)) :=
  clean_of_readsLike (h.kept.readsLike (.inl ⟨rfl,rfl⟩)) h.onDevice hbs hsmall

theorem writeAt_none {w w' : Writer} {f f' : File} {p : List UInt8} {off : ℤ} {n : ℕ}
    {faults : Faults} (h : w.writeAt codec f p off faults = .ok (w',f',n,none)) :
    p.length ≤ maxWriteSize ∧ n = p.length := by
  rw [Writer.writeAt] at h
  split_ifs at h with hzero hbig
  · cases h
    exact ⟨by omega,hzero.symm⟩
  · cases h
  · refine ⟨by omega,?_⟩
    rcases hhead : w.writeHeader codec f faults.header with ⟨w₁,f₁,err⟩
    rw [hhead] at h
    cases err with
    | some e => cases h
    | none =>
      simp only [bind,Except.bind] at h
      split at h
      · cases h
      · simp only [Except.ok.injEq,Prod.mk.injEq] at h
        obtain ⟨-,-,hn,herr⟩ := h
        rw [← hn,if_pos herr]

/-- The blocks of a buffer written from `off` on, over the blocks there were. -/
def putBlocks (blockSize : ℕ) (buf : List UInt8) (off : ℕ) (data : ℕ → Option (List UInt8))
    (k : ℕ) : Option (List UInt8) :=
  if off ≤ k ∧ k < off+buf.length/blockSize then
    some ((buf.drop ((k-off)*blockSize)).take blockSize)
  else data k

theorem putBlocks_nil (off : ℕ) (data : ℕ → Option (List UInt8)) :
    putBlocks blockSize [] off data = data := by
  funext k
  rw [putBlocks,if_neg (by simp)]

theorem getD_slice {buf : List UInt8} {a n : ℕ} (h : a+n ≤ buf.length) :
    (List.range' a n).map (fun x => buf.getD x 0) = (buf.drop a).take n := by
  refine List.ext_getElem ?_ fun i h₁ h₂ => ?_
  · simp only [List.length_map,List.length_range',List.length_take,List.length_drop]
    omega
  · simp only [List.length_map,List.length_range'] at h₁
    simp only [List.getElem_map,List.getElem_range',List.getElem_take,List.getElem_drop,
      Nat.one_mul]
    rw [List.getD_eq_getElem?_getD,List.getElem?_eq_getElem (by omega),Option.getD_some]

/-- A write of whole blocks replaces these blocks and no other. -/
theorem blockAt_write (hbs : 0 < blockSize) {wr : Write} {off : ℕ} (hoff : wr.off = off*blockSize)
    (hlength : blockSize ∣ wr.data.length) :
    blockAt blockSize (stored (ops++[.write wr])) =
      putBlocks blockSize wr.data off (blockAt blockSize (stored ops)) := by
  funext k
  have hin := in_blocks_iff hbs (show blockSize ∣ wr.off from ⟨off,by rw [hoff,Nat.mul_comm]⟩)
    hlength
  rw [hoff,Nat.mul_div_cancel off hbs] at hin
  rw [stored_snoc]
  by_cases hk : off ≤ k ∧ k < off+wr.data.length/blockSize
  · have hcell : ∀ x, k*blockSize ≤ x → x < k*blockSize+blockSize →
        Op.store (stored ops) (.write wr) x = some (wr.data.getD (x-off*blockSize) 0) := by
      intro x h₁ h₂
      have hdiv : x/blockSize = k := by
        rw [Nat.div_eq_iff hbs]
        omega
      have := (hin x).mpr (by rwa [hdiv])
      have hlt : x-off*blockSize < wr.data.length := by omega
      rw [Op.store,if_pos (by rw [Op.off,Op.length,hoff]; exact this),Op.byteAt,hoff,
        List.getD_eq_getElem?_getD,List.getElem?_eq_getElem hlt,Option.getD_some]
    rw [putBlocks,if_pos hk,blockAt,hcell _ le_rfl (by omega),if_neg (by simp)]
    have hlen : (k-off)*blockSize+blockSize ≤ wr.data.length := by
      have h₁ : (k-off+1)*blockSize ≤ wr.data.length/blockSize*blockSize :=
        Nat.mul_le_mul_right blockSize (by omega)
      have h₂ := Nat.div_mul_le_self wr.data.length blockSize
      rw [Nat.add_mul,Nat.one_mul] at h₁
      omega
    rw [← getD_slice hlen]
    have hshift : List.range' (k*blockSize) blockSize =
        (List.range' ((k-off)*blockSize) blockSize).map (off*blockSize+·) := by
      rw [List.map_add_range',← Nat.add_mul,Nat.add_sub_cancel' hk.1]
    rw [hshift,List.map_map]
    refine congrArg some (List.map_congr_left fun x hx => ?_)
    obtain ⟨h₁,h₂⟩ := List.mem_range'_1.mp hx
    have hsum : off*blockSize+(k-off)*blockSize = k*blockSize := by
      rw [← Nat.add_mul,Nat.add_sub_cancel' hk.1]
    simp only [Function.comp]
    rw [hcell _ (by omega) (by omega),Option.getD_some,Nat.add_sub_cancel_left]
  · have hcell : ∀ x, k*blockSize ≤ x → x < k*blockSize+blockSize →
        Op.store (stored ops) (.write wr) x = stored ops x := by
      intro x h₁ h₂
      have hdiv : x/blockSize = k := by
        rw [Nat.div_eq_iff hbs]
        omega
      have := mt (hin x).mp (by rwa [hdiv])
      rw [Op.store,if_neg (by rw [Op.off,Op.length,hoff]; exact this)]
    rw [putBlocks,if_neg hk,blockAt,blockAt,hcell _ le_rfl (by omega)]
    congr 2
    refine List.map_congr_left fun x hx => ?_
    obtain ⟨h₁,h₂⟩ := List.mem_range'_1.mp hx
    rw [hcell x h₁ h₂]

theorem OnDevice.write (h : OnDevice blockSize numBlocks ops) {wr : Write} {off : ℕ}
    (hoff : wr.off = off*blockSize) (hlength : blockSize ∣ wr.data.length)
    (hin : off+wr.data.length/blockSize ≤ numBlocks) :
    OnDevice blockSize numBlocks (ops++[.write wr]) := by
  intro op hop
  rcases List.mem_append.mp hop with hop | hop
  · exact h op hop
  · rw [List.mem_singleton.mp hop]
    have hle := Nat.mul_le_mul_right blockSize hin
    rw [Nat.add_mul,Nat.div_mul_cancel hlength,← hoff] at hle
    exact ⟨⟨off,by rw [Nat.mul_comm]; exact hoff⟩,hlength,hle⟩

/-- A successful call on the device logs its blocks. -/
theorem Holds.writeBlocks (h : Holds codec blockSize numBlocks l ops) (hbs : 0 < blockSize)
    (hsmall : numBlocks*blockSize < 2^63) {buf : List UInt8} {off n : ℕ} {faults : Faults}
    (hin : off+buf.length/blockSize ≤ numBlocks)
    (hcall : l.writeBlocks codec blockSize buf off faults = .ok (l',n,none)) :
    n = buf.length/blockSize ∧ ∃ ops', Holds codec blockSize numBlocks l' ops' ∧
      blockAt blockSize (stored ops') =
        putBlocks blockSize buf off (blockAt blockSize (stored ops)) := by
  rw [ReadableLog.writeBlocks] at hcall
  split_ifs at hcall with hmod
  · cases hcall
  obtain ⟨hi,hlt⟩ := i64_offset hsmall (le_trans (Nat.le_add_right off _) hin)
  rw [hi] at hcall
  cases hwrite : l.w.writeAt codec l.file buf (off*blockSize : ℕ) faults with
  | error e =>
    rw [hwrite] at hcall
    cases hcall
  | ok out =>
    obtain ⟨w',file',m,err⟩ := out
    rw [hwrite] at hcall
    simp only [bind,Except.bind,Except.ok.injEq,Prod.mk.injEq] at hcall
    obtain ⟨rfl,rfl,rfl⟩ := hcall
    obtain ⟨hmax,rfl⟩ := writeAt_none hwrite
    refine ⟨rfl,?_⟩
    rcases Nat.eq_zero_or_pos buf.length with hzero | hpos
    · rw [Writer.writeAt,if_pos hzero] at hwrite
      simp only [Except.ok.injEq,Prod.mk.injEq] at hwrite
      obtain ⟨rfl,rfl,-⟩ := hwrite
      rw [List.length_eq_zero_iff.mp hzero,putBlocks_nil]
      exact ⟨ops,h,rfl⟩
    · let wr : Write := ⟨off*blockSize,buf,hlt,hpos,hmax⟩
      have hdvd : blockSize ∣ buf.length := Nat.dvd_of_mod_eq_zero (not_not.mp hmod)
      have hkept : Kept codec w' file' (ops++[.write wr]) := h.kept.writeAt_ok hwrite
      exact ⟨_,⟨hkept,h.onDevice.write rfl hdvd hin⟩,blockAt_write hbs rfl hdvd⟩

/-- A call with whole blocks of the device, to a log without faults, logs its blocks or leaves
what the log reads. -/
theorem writeBlocks_active (h : Active codec l.w l.file ops)
    (hops : OnDevice blockSize numBlocks ops) (hbs : 0 < blockSize)
    (hsmall : numBlocks*blockSize < 2^63) {buf : List UInt8} {off : ℕ} (hdvd : blockSize ∣ buf.length)
    (hmax : buf.length ≤ maxWriteSize) (hin : off+buf.length/blockSize ≤ numBlocks) :
    ∃ l' n err, l.writeBlocks codec blockSize buf off ⟨none,none⟩ = .ok (l',n,err) ∧
      (err = none → ∃ ops', Active codec l'.w l'.file ops' ∧ OnDevice blockSize numBlocks ops' ∧
        blockAt blockSize (stored ops') =
          putBlocks blockSize buf off (blockAt blockSize (stored ops))) ∧
      (err ≠ none → n = 0 ∧ Active codec l'.w l'.file ops) := by
  obtain ⟨hi,hlt⟩ := i64_offset hsmall (le_trans (Nat.le_add_right off _) hin)
  have hmod : ¬buf.length%blockSize ≠ 0 := not_not.mpr (Nat.mod_eq_zero_of_dvd hdvd)
  rcases Nat.eq_zero_or_pos buf.length with hzero | hpos
  · refine ⟨l,0,none,?_,fun _ => ⟨ops,h,hops,?_⟩,fun he => absurd rfl he⟩
    · rw [ReadableLog.writeBlocks,if_neg hmod,Writer.writeAt,if_pos hzero]
      simp only [bind,Except.bind,Nat.zero_div]
    · rw [List.length_eq_zero_iff.mp hzero,putBlocks_nil]
  · let wr : Write := ⟨off*blockSize,buf,hlt,hpos,hmax⟩
    obtain ⟨w',f',n,err,hcall,hok,hfail⟩ := h.writeAt wr
    refine ⟨⟨w',f'⟩,n/blockSize,err,?_,fun he => ?_,fun he => ?_⟩
    · rw [ReadableLog.writeBlocks,if_neg hmod,hi]
      rw [show l.w.writeAt codec l.file buf (off*blockSize : ℕ) ⟨none,none⟩ = _ from hcall]
      rfl
    · exact ⟨_,hok he,hops.write rfl hdvd hin,blockAt_write hbs rfl hdvd⟩
    · obtain ⟨rfl,hactive⟩ := hfail he
      exact ⟨Nat.zero_div _,hactive⟩

end Log
end BlockLog
end Logblock
