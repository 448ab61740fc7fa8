import Logblock.Loop
import Logblock.Bytes
import Logblock.Stream

/-! The adaptor from blocks to bytes: `adaptor.Reader` serves byte ranges from a reader of whole
blocks, through a bounce buffer if the range is not aligned. -/
namespace Logblock
namespace Adaptor

open Loop Bytes

/-- `t.BlockReader`: the number of blocks of the buffer and the first block, to the blocks read. -/
abbrev BlockReader := ℕ → ℤ → List (List UInt8) × Option Error

/-- `bytes.Buffer.Read` into `n` bytes. A short read is no error if there was something to read. -/
def bufferRead (buf : List UInt8) (n : ℕ) : List UInt8 × Option Error :=
  if buf = [] then ([],if n = 0 then none else some .eof) else (buf.take n,none)

/-- The size of the bounce buffer, for the blocks from that of `off` to the one behind the last. -/
def bounceSize (blockSize n : ℕ) (off : ℤ) : ℤ :=
  let startBlock := off.tdiv blockSize
  let endBlock := (i64 (i64 (i64 (off+n)+blockSize)-1)).tdiv blockSize
  i64 (i64 (endBlock-startBlock)*blockSize)

/-- `ReadAt` into `n` bytes. A buffer is read into as the whole blocks that it holds. -/
def readAt (br : BlockReader) (blockSize n : ℕ) (off : ℤ) : Exec (List UInt8 × Option Error) :=
  if off < 0 then .error (.panic "off < 0")
  else if blockSize = 0 then .error (.panic "integer divide by zero")
  else if n%blockSize ≠ 0 ∨ off.tmod blockSize ≠ 0 then
    let startBlock := off.tdiv blockSize
    let bufSize := bounceSize blockSize n off
    if bufSize < 0 then .error (.panic "slice bounds out of range")
    else
      let (blocks,err) := br (bufSize.toNat/blockSize) startBlock
      if err ≠ none ∧ err ≠ some .eof then .ok ([],err)
      else .ok (bufferRead (blocks.flatten.drop (off.tmod blockSize).toNat) n)
  else
    let (blocks,err) := br (n/blockSize) (off.tdiv blockSize)
    .ok (blocks.flatten,err)

/-- A device: blocks of one size. -/
structure Device (blockSize : ℕ) where
  blocks : List (List UInt8)
  size : ∀ b ∈ blocks, b.length = blockSize

namespace Device

variable {blockSize : ℕ}

/-- The content of the device, byte by byte. -/
def flat (d : Device blockSize) : List UInt8 := d.blocks.flatten

/-- The device as a block reader, which gives `io.EOF` exactly when it falls short. -/
def Serves (d : Device blockSize) (br : BlockReader) : Prop :=
  ∀ k start : ℕ, br k start =
    ((d.blocks.drop start).take k,if d.blocks.length-start < k then some .eof else none)

def reader (d : Device blockSize) : BlockReader := fun k start =>
  ((d.blocks.drop start.toNat).take k,if d.blocks.length-start.toNat < k then some .eof else none)

theorem serves_reader (d : Device blockSize) : d.Serves d.reader := fun _ _ => rfl

theorem length_flatten_of_size {bs : List (List UInt8)} (h : ∀ b ∈ bs, b.length = blockSize) :
    bs.flatten.length = bs.length*blockSize := by
  induction bs with
  | nil => simp
  | cons b bs ih =>
    rw [List.flatten_cons,List.length_append,h b List.mem_cons_self,
      ih fun b' hb' => h b' (List.mem_cons_of_mem b hb'),List.length_cons,Nat.add_mul,Nat.one_mul,
      Nat.add_comm]

theorem length_flat (d : Device blockSize) : d.flat.length = d.blocks.length*blockSize :=
  length_flatten_of_size d.size

theorem flatten_take {bs : List (List UInt8)} (h : ∀ b ∈ bs, b.length = blockSize) (k : ℕ) :
    (bs.take k).flatten = bs.flatten.take (k*blockSize) := by
  induction bs generalizing k with
  | nil => simp
  | cons b bs ih =>
    cases k with
    | zero => simp
    | succ k =>
      have hb := h b List.mem_cons_self
      have hsplit : (k+1)*blockSize = b.length+k*blockSize := by
        rw [hb,Nat.add_mul,Nat.one_mul,Nat.add_comm]
      rw [List.take_succ_cons,List.flatten_cons,List.flatten_cons,
        ih (fun b' hb' => h b' (List.mem_cons_of_mem b hb')) k,hsplit,List.take_length_add_append]

theorem flatten_drop {bs : List (List UInt8)} (h : ∀ b ∈ bs, b.length = blockSize) (k : ℕ) :
    (bs.drop k).flatten = bs.flatten.drop (k*blockSize) := by
  induction bs generalizing k with
  | nil => simp
  | cons b bs ih =>
    cases k with
    | zero => simp
    | succ k =>
      have hb := h b List.mem_cons_self
      have hsplit : (k+1)*blockSize = b.length+k*blockSize := by
        rw [hb,Nat.add_mul,Nat.one_mul,Nat.add_comm]
      rw [List.drop_succ_cons,ih (fun b' hb' => h b' (List.mem_cons_of_mem b hb')) k,
        List.flatten_cons,hsplit,List.drop_length_add_append]

/-- The blocks of a read are a range of the bytes. -/
theorem flatten_blocks (d : Device blockSize) (start k : ℕ) :
    ((d.blocks.drop start).take k).flatten = (d.flat.drop (start*blockSize)).take (k*blockSize) := by
  rw [flatten_take (fun b hb => d.size b (List.mem_of_mem_drop hb)),flatten_drop d.size]
  rfl

end Device

section ReadAt

variable {blockSize : ℕ} {d : Device blockSize} {br : BlockReader}

theorem readAt_aligned (hbs : 0 < blockSize) (h : d.Serves br) {n off : ℕ} (hn : n%blockSize = 0)
    (hoff : off%blockSize = 0) :
    readAt br blockSize n off = .ok (ByteStream.readAt d.flat off n) := by
  have hmod : (off : ℤ).tmod blockSize = 0 := by
    rw [← Int.ofNat_tmod,hoff]
    rfl
  have hcond : ¬(n%blockSize ≠ 0 ∨ (off : ℤ).tmod blockSize ≠ 0) := by
    rintro (hne | hne)
    · exact hne hn
    · exact hne hmod
  have hk : n/blockSize*blockSize = n := Nat.div_mul_cancel (Nat.dvd_of_mod_eq_zero hn)
  have hs : off/blockSize*blockSize = off := Nat.div_mul_cancel (Nat.dvd_of_mod_eq_zero hoff)
  rw [readAt,if_neg (by omega),if_neg (by omega),if_neg hcond,← Int.ofNat_tdiv,h]
  simp only [d.flatten_blocks,hk,hs]
  have herr : d.blocks.length-off/blockSize < n/blockSize ↔
      ((d.flat.drop off).take n).length < n := by
    rw [List.length_take,List.length_drop,d.length_flat]
    constructor
    · intro hlt
      have hmul := Nat.mul_lt_mul_of_pos_right hlt hbs
      rw [Nat.sub_mul,hk,hs] at hmul
      omega
    · intro hlt
      have hmul : (d.blocks.length-off/blockSize)*blockSize < n/blockSize*blockSize := by
        rw [Nat.sub_mul,hk,hs]
        omega
      exact Nat.lt_of_mul_lt_mul_right hmul
  rw [ByteStream.readAt,if_neg (show ¬(off : ℤ) < 0 by omega)]
  simp only [herr,Int.toNat_natCast]

/-- The bytes of the request that the bounce buffer has room for. -/
def room (blockSize n off : ℕ) : ℕ :=
  (bounceSize blockSize n off).toNat/blockSize*blockSize-off%blockSize

theorem readAt_unaligned (hbs : 0 < blockSize) (h : d.Serves br) {n off : ℕ}
    (hun : n%blockSize ≠ 0 ∨ off%blockSize ≠ 0) (hsize : 0 ≤ bounceSize blockSize n off) :
    readAt br blockSize n off =
      .ok (bufferRead ((d.flat.drop off).take (room blockSize n off)) n) := by
  have hcond : n%blockSize ≠ 0 ∨ (off : ℤ).tmod blockSize ≠ 0 := by
    rw [← Int.ofNat_tmod]
    omega
  have hstart : off/blockSize*blockSize+off%blockSize = off := Nat.div_add_mod' off blockSize
  rw [readAt,if_neg (by omega),if_neg (by omega),if_pos hcond]
  simp only
  rw [if_neg (by omega),← Int.ofNat_tdiv,← Int.ofNat_tmod,h]
  generalize hk : (bounceSize blockSize n off).toNat/blockSize = k
  have herr : ¬((if d.blocks.length-off/blockSize < k then some Error.eof else none) ≠ none ∧
      (if d.blocks.length-off/blockSize < k then some Error.eof else none) ≠ some .eof) := by
    split_ifs <;> simp
  simp only [if_neg herr,d.flatten_blocks,Int.toNat_natCast,List.drop_take,List.drop_drop,hstart,
    room,hk]

theorem readAt_unaligned_panics (hbs : 0 < blockSize) {n off : ℕ}
    (hun : n%blockSize ≠ 0 ∨ off%blockSize ≠ 0) (hsize : bounceSize blockSize n off < 0) :
    readAt br blockSize n off = .error (.panic "slice bounds out of range") := by
  have hcond : n%blockSize ≠ 0 ∨ (off : ℤ).tmod blockSize ≠ 0 := by
    rw [← Int.ofNat_tmod]
    omega
  rw [readAt,if_neg (by omega),if_neg (by omega),if_pos hcond]
  simp only
  rw [if_pos hsize]

/-- A read through a buffer with room for `m` bytes is a read of the file if both see all of the
request, or nothing. -/
theorem bufferRead_eq_iff {file : List UInt8} {n off m : ℕ} :
    bufferRead ((file.drop off).take m) n = ByteStream.readAt file off n ↔
      file.length ≤ off ∨ n = 0 ∨ off+n ≤ file.length ∧ n ≤ m := by
  rw [ByteStream.readAt,if_neg (by omega),Int.toNat_natCast]
  by_cases hin : off < file.length
  · by_cases hm : m = 0
    · subst hm
      by_cases hn : n = 0
      · subst hn
        simp [bufferRead]
      · have hne : (file.drop off).take n ≠ [] := by
          intro hnil
          have := congrArg List.length hnil
          rw [List.length_take,List.length_drop,List.length_nil] at this
          omega
        constructor
        · intro he
          exact absurd (congrArg Prod.fst he).symm hne
        · omega
    · have hne : (file.drop off).take m ≠ [] := by
        intro hnil
        have := congrArg List.length hnil
        rw [List.length_take,List.length_drop,List.length_nil] at this
        omega
      rw [bufferRead,if_neg hne,List.take_take]
      simp only [Prod.mk.injEq,eq_comm (a := (none : Option Error)),ite_eq_right_iff,reduceCtorEq,
        imp_false]
      constructor
      · rintro ⟨he,herr⟩
        have := congrArg List.length he
        simp only [List.length_take,List.length_drop] at this herr
        omega
      · rintro (hle | rfl | ⟨hle,hnm⟩)
        · omega
        · simp
        · rw [Nat.min_eq_left hnm]
          refine ⟨rfl,?_⟩
          rw [List.length_take,List.length_drop]
          omega
  · have hdrop : file.drop off = [] := List.drop_of_length_le (by omega)
    rw [hdrop,List.take_nil,List.take_nil,bufferRead,if_pos rfl]
    refine iff_of_true ?_ (.inl (by omega))
    by_cases hn : n = 0
    · simp [hn]
    · have hpos : 0 < n := Nat.pos_of_ne_zero hn
      simp only [hn,hpos,List.length_nil,if_true,if_false]

/-- Rounding up to a block leaves room for what was rounded, if the sum does not overflow. -/
theorem bounceSize_of_small (hbs : 0 < blockSize) {n off : ℕ} (hfit : off+n+blockSize ≤ 2^63) :
    0 ≤ bounceSize blockSize n off ∧ n ≤ room blockSize n off := by
  have hend : i64 (i64 (i64 ((off : ℤ)+n)+blockSize)-1) = (off+n+blockSize-1 : ℕ) := by
    unfold i64
    omega
  generalize hlast : off+n+blockSize-1 = last at hend
  generalize hk : last/blockSize-off/blockSize = k
  have hstart : off/blockSize*blockSize+off%blockSize = off := Nat.div_add_mod' off blockSize
  have hlast' : last/blockSize*blockSize+last%blockSize = last := Nat.div_add_mod' last blockSize
  have hmod : last%blockSize < blockSize := Nat.mod_lt _ hbs
  have hle : off/blockSize ≤ last/blockSize := Nat.div_le_div_right (by omega)
  have hmul : k*blockSize = last/blockSize*blockSize-off/blockSize*blockSize := by
    rw [← hk,Nat.sub_mul]
  have hsize : bounceSize blockSize n off = (k*blockSize : ℕ) := by
    have hk' : k ≤ last := by
      rw [← hk]
      exact (Nat.sub_le _ _).trans (Nat.div_le_self _ _)
    simp only [bounceSize,hend]
    clear hend
    rw [← Int.ofNat_tdiv,← Int.ofNat_tdiv,← Int.ofNat_sub hle,hk,
      i64_of_range (x := (k : ℤ)) (by omega) (by omega),← Nat.cast_mul,
      i64_of_range (by omega) (by omega)]
  rw [room,hsize,Int.toNat_natCast,Nat.mul_div_cancel k hbs]
  clear hend hsize
  omega

/-- If the sum overflows, the end is negative and is rounded towards zero. The difference of the
blocks wraps back to a buffer of up to two blocks more than the request needs. -/
theorem bounceSize_of_wraps (hbs : 2 ≤ blockSize) {n off : ℕ} (hoff : off < 2^63)
    (hfit : n+3*blockSize ≤ 2^63) (hwrap : 2^63 < off+n+blockSize) :
    0 ≤ bounceSize blockSize n off ∧ n ≤ room blockSize n off := by
  have hend : i64 (i64 (i64 ((off : ℤ)+n)+blockSize)-1) = -(2^64+1-(off+n+blockSize) : ℕ) := by
    unfold i64
    omega
  generalize hlast : 2^64+1-(off+n+blockSize) = last at hend
  have hstart : off/blockSize*blockSize+off%blockSize = off := Nat.div_add_mod' off blockSize
  have hlast' : last/blockSize*blockSize+last%blockSize = last := Nat.div_add_mod' last blockSize
  have hmod : last%blockSize < blockSize := Nat.mod_lt _ (by omega)
  have hmod' : off%blockSize < blockSize := Nat.mod_lt _ (by omega)
  have hhalf : off/blockSize ≤ off/2 := Nat.div_le_div_left hbs (by omega)
  have hhalf' : last/blockSize ≤ last/2 := Nat.div_le_div_left hbs (by omega)
  have hsize : bounceSize blockSize n off =
      (n+off%blockSize+blockSize-1+last%blockSize : ℕ) := by
    simp only [bounceSize,hend]
    clear hend
    have hdiff : i64 (-((last/blockSize : ℕ) : ℤ)-(off/blockSize : ℕ)) =
        -((last/blockSize : ℕ) : ℤ)-(off/blockSize : ℕ) := by
      generalize last/blockSize = a at *
      generalize off/blockSize = b at *
      exact i64_of_range (by omega) (by omega)
    rw [Int.neg_tdiv,← Int.ofNat_tdiv,← Int.ofNat_tdiv,hdiff,
      Int.sub_mul,Int.neg_mul,← Nat.cast_mul,← Nat.cast_mul]
    unfold i64
    omega
  have hround := Nat.div_add_mod' (n+off%blockSize+blockSize-1+last%blockSize) blockSize
  have hmod'' := Nat.mod_lt (n+off%blockSize+blockSize-1+last%blockSize) (y := blockSize) (by omega)
  rw [room,hsize,Int.toNat_natCast]
  clear hend hsize
  omega

end ReadAt

/-- Two blocks of two bytes. -/
def fourBytes : Device 2 := ⟨[[1,2],[3,4]],by decide⟩

end Adaptor
end Logblock
