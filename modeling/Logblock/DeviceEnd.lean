import Logblock.DeviceTables

/-! The end of the device. Neither `WriteBlocks` nor the logs compare a block index with the number
of blocks, and a read subtracts offsets from it. As long as the writes lie on the device, every read
ends there. -/
namespace Logblock

open Loop BlockLog Readers

namespace Device

variable {σ : Type}

/-- Every read returns, fills and counts blocks of the device only, and gives `io.EOF` for the
requests that cross its end. -/
def EndRespected (b : Backend σ) (d : Device σ) : Prop :=
  ∀ k off, ∃ filled count err, d.readBlocks b (k*b.blockSize) off = .ok ⟨filled,count,err⟩ ∧
    filled.length = count ∧ (0 < count → off+count ≤ b.numBlocks) ∧
    (err = none ∨ err = some .eof) ∧ (err = some .eof ↔ 0 < k ∧ b.numBlocks < off+k)

section End

variable {b : Backend σ} {InUse Holds : σ → (ℕ → Option (List UInt8)) → Prop}
  {data : ℕ → ℕ → Option (List UInt8)} {ws : List BlockWrite} {d : Device σ}

theorem Inv.endRespected (h : Inv b InUse Holds data ws d) (hkeeps : b.Keeps InUse Holds)
    (hbs : 0 < b.blockSize) : EndRespected b d := by
  intro k off
  refine ⟨_,_,_,h.readBlocks_eq hkeeps hbs k off,by simp,fun _ => by omega,?_,?_⟩
  · split_ifs
    · exact .inr rfl
    · exact .inl rfl
  · split_ifs with hlt
    · exact iff_of_true rfl ⟨by omega,by omega⟩
    · exact iff_of_false (by simp) (by omega)

/-- A failing write on the device leaves all content. -/
theorem Inv.write_fails (h : Inv b InUse Holds data ws d) (hkeeps : b.Keeps InUse Holds)
    (hbs : 0 < b.blockSize) {w : BlockWrite} (hw : w.InRange b) : ∃ d' n err,
      d.writeBlocks b w.buf w.index = .ok (d',n,err) ∧ (err ≠ none → ∀ k off,
        d'.readBlocks b (k*b.blockSize) off = d.readBlocks b (k*b.blockSize) off) := by
  obtain ⟨d',n,err,hcall,data',hinv⟩ := h.move_write hkeeps hw
  refine ⟨d',n,err,hcall,fun he k off => ?_⟩
  rw [if_neg he] at hinv
  rw [hinv.readBlocks_eq hkeeps hbs,h.readBlocks_eq hkeeps hbs]

end End

/-- With writes on the device only, the end of the device is respected in every state, and a call
of `WriteBlocks` returns and leaves all content if it fails. -/
theorem end_respected_of_writes_inRange {codec : Wal.Codec} {rf : Option ℕ}
    {blockSize numBlocks : ℕ} (hbs : 0 < blockSize) (hsmall : numBlocks*blockSize < 2^63)
    {ws : List BlockWrite} {d : Device ReadableLog}
    (h : Reached (walBackend codec rf blockSize numBlocks) ws d) :
    EndRespected (walBackend codec rf blockSize numBlocks) d ∧
      ∀ w : BlockWrite, w.InRange (walBackend codec rf blockSize numBlocks) → ∃ d' n err,
        d.writeBlocks (walBackend codec rf blockSize numBlocks) w.buf w.index = .ok (d',n,err) ∧
        (err ≠ none → ∀ k off,
          d'.readBlocks (walBackend codec rf blockSize numBlocks) (k*blockSize) off =
            d.readBlocks (walBackend codec rf blockSize numBlocks) (k*blockSize) off) := by
  have hkeeps := walBackend_keeps codec rf hbs hsmall
  obtain ⟨data,hinv⟩ := Inv.of_reached hkeeps hbs h
  exact ⟨hinv.endRespected hkeeps hbs,fun w hw => hinv.write_fails hkeeps hbs hw⟩

/-- A device that has compacted its first log. -/
theorem end_respected_after_compaction : ∃ d,
    Reached (walBackend Wal.wireCodec none 512 4) [.fill 512 9 2,.fill 512 7 1] d ∧ d.created = 3 ∧
    EndRespected (walBackend Wal.wireCodec none 512 4) d := by
  obtain ⟨d,-,hreached,hcreated⟩ := exists_compacted
  exact ⟨d,hreached,hcreated,
    (end_respected_of_writes_inRange (by decide) (by decide) hreached).1⟩

/-- Three blocks are written at the last block of a device of four. -/
def overEnd : BlockWrite := ⟨List.replicate 1536 1,3⟩

/-- The write over the end succeeds, and a read over the end panics. -/
theorem read_over_end_panics : ∃ d' n,
    (new (walBackend Wal.wireCodec none 512 4)).writeBlocks (walBackend Wal.wireCodec none 512 4)
      overEnd.buf overEnd.index = .ok (d',n,none) ∧
    d'.readBlocks (walBackend Wal.wireCodec none 512 4) (4*512) 3 =
      .error (.panic "slice bounds out of range") ∧
    ¬EndRespected (walBackend Wal.wireCodec none 512 4) d' := by
  have hrun : ((new (walBackend Wal.wireCodec none 512 4)).writeBlocks
      (walBackend Wal.wireCodec none 512 4) overEnd.buf overEnd.index).map (fun p => (p.2.2,
        (p.1.readBlocks (walBackend Wal.wireCodec none 512 4) (4*512) 3).map fun _ => ())) =
      .ok (none,.error (.panic "slice bounds out of range")) := by
    decide +kernel
  obtain ⟨⟨d',n,err⟩,hcall,hr⟩ := exists_of_map hrun
  simp only [Prod.mk.injEq] at hr
  obtain ⟨rfl,hr⟩ := hr
  have hpanic := error_of_map hr
  refine ⟨d',n,hcall,hpanic,fun h => ?_⟩
  obtain ⟨filled,count,err,hread,_⟩ := h 4 3
  rw [show (4 : ℕ)*(walBackend Wal.wireCodec none 512 4).blockSize = 4*512 from rfl,hpanic] at hread
  cases hread

end Device
end Logblock
