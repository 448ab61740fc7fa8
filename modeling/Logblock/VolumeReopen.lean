import Logblock.VolumeNames

/-! Opening a volume again. Whatever was under way when the process ended, the files of the saved
list, pushed in its order into a block map, show the writes that were done. -/
namespace Logblock
namespace Volume

open Loop Layers BlockMap BlockHoleReader

variable {β : Type} {new : Metadata} {ws : List (Write β)} {v : Volume β}

/-- The block map after the files of the list are pushed, the oldest first. -/
def indexFiles (env : DataFileEntry → BlockHoleReader β) (m : Metadata) :
    Exec (BlockMap.Reader DataFileEntry) :=
  m.dataFiles.foldlM (fun index e => index.pushReader env e) (.new m.blockSize m.numBlocks)

/-- The process that opens the volume finds every listed file, and reads what was written last,
or zeros. -/
theorem reopened_reads_last_write (hnew : new.dataFiles = []) (hbs : 0 < new.blockSize)
    {targetTableSize : ℕ} (h : Reached new targetTableSize ws v) (hnamed : v.named < 2^64-1)
    (hlen : v.savedFiles.length ≤ 65535) {env : DataFileEntry → BlockHoleReader β}
    (hclean : ∀ e, (env e).Clean (v.data e)) (zero : β) :
    ∃ p index, v.openBlockFile new = some p ∧ indexFiles env p.metadata = .ok index ∧
      ∀ k off, index.readBlocks env zero (k*new.blockSize) off =
        .ok ⟨(List.range' off k).map fun x => (newest Write.payload ws x).getD zero,k,none⟩ := by
  have hinv := Inv.of_reached hnew h (by omega)
  obtain ⟨p,hp,hfiles,hrun⟩ := hinv.openBlockFile (by omega) hnew
  obtain ⟨hblockSize,hnumBlocks⟩ := hrun.size
  obtain ⟨index,hindex,hhistory⟩ := History.exists_foldlM (fun e => (hclean e).toBounded)
    (l := v.savedFiles) (.new : History env new.blockSize new.numBlocks [] _)
    (by simpa using hinv.nodup) (by simpa [BlockMap.Reader.new] using hlen)
  refine ⟨p,index,hp,?_,fun k off => ?_⟩
  · rw [indexFiles,hfiles,hblockSize,hnumBlocks]
    exact hindex
  · obtain ⟨hown,-,hsize⟩ := hhistory.owned fun e => (hclean e).toBounded
    have hread := hown.readBlocks_eq (fun e _ => hclean e)
      (fun x e hx => (of_owner hx).2)
      (hsize ▸ hbs) zero k off
    have hserved : Reader.served zero v.data (owner v.data (v.savedFiles.reverse++[])) =
        fun x => (newest Write.payload ws x).getD zero := by
      funext x
      rw [Reader.served,owner_bind,List.append_nil,hinv.content]
    rw [← hsize,hread,hserved]

/-- A table that was just built is read under the log, after a crash. -/
theorem reopened_reads_last_write_after_crash : ∃ (v : Volume ℕ) (p : Process)
    (index : BlockMap.Reader DataFileEntry),
    Reached sampleMetadata (2^20) [⟨0,[5,6]⟩] v ∧ v.openBlockFile sampleMetadata = some p ∧
      indexFiles (fun e => ofList ((List.range 4).map (v.data e))) p.metadata = .ok index ∧
      index.readBlocks (fun e => ofList ((List.range 4).map (v.data e))) 9 (4*2^20) 0 =
        .ok ⟨[5,6,9,9],4,none⟩ := by
  obtain ⟨v,hreach,hv⟩ := exists_sampleRun
  have hview : (Transition.after (next sampleMetadata (2^20)) empty sampleRun).toOption.join.map
      (fun v => (v.named,v.savedFiles.length)) = some (1,2) := by decide +kernel
  rw [hv] at hview
  simp only [Except.toOption,Option.join_some,Option.map_some,Option.some.injEq,
    Prod.mk.injEq] at hview
  have hnamed : v.named < 2^64-1 := by
    rw [hview.1]
    norm_num
  have hbounded := (Inv.of_reached rfl hreach (by omega)).bounded
  have hclean : ∀ e, (ofList ((List.range 4).map (v.data e))).Clean (v.data e) := by
    intro e
    have h := ofList_clean ((List.range 4).map (v.data e)) (by simp)
    have hdata : (fun x => ((List.range 4).map (v.data e))[x]?.getD none) = v.data e := by
      funext x
      by_cases hx : x < 4
      · simp [hx]
      · rw [hbounded e x (by simpa [sampleMetadata] using hx),List.getElem?_eq_none (by simpa using hx)]
        rfl
    rwa [hdata] at h
  obtain ⟨p,index,hp,hindex,hread⟩ := reopened_reads_last_write rfl (by decide) hreach hnamed
    (by omega) hclean 9
  exact ⟨v,p,index,hreach,hp,hindex,hread 4 0⟩

end Volume
end Logblock
