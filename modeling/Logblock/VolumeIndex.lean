import Logblock.VolumeInvariant

/-! The block map of a process. The steps of a volume say by the blocks of its files what is compacted
and which readers are dropped; a block map into which the readers of the process were pushed computes
the same: in the reader of which `compactPendingWriters` builds the table, and in the counts of
`GetLiveBlocks`. -/
namespace Logblock
namespace Volume

open Loop Layers BlockMap BlockHoleReader

variable {β : Type} {new : Metadata} {ws : List (Write β)} {v : Volume β} {p : Process}
  {index : BlockMap.Reader DataFileEntry} {env : DataFileEntry → BlockHoleReader β}

/-- The block map has the readers of the process, and each block from the one that shows it. -/
structure Indexes (v : Volume β) (p : Process) (index : BlockMap.Reader DataFileEntry) : Prop where
  owned : index.Owned (owner v.data p.readers)
  listed : index.rs = p.readers.reverse
  size : index.blockSize = p.metadata.blockSize

/-- The block map after the readers of the process are pushed, the oldest first. -/
def indexReaders (env : DataFileEntry → BlockHoleReader β) (p : Process) :
    Exec (BlockMap.Reader DataFileEntry) :=
  p.readers.reverse.foldlM (fun index e => index.pushReader env e)
    (.new p.metadata.blockSize p.metadata.numBlocks)

theorem exists_indexes (hclean : ∀ e, (env e).Clean (v.data e))
    (hbounded : ∀ e x, new.numBlocks ≤ x → v.data e x = none) (hrun : Running new v p)
    (hlen : p.readers.length ≤ 65535) :
    ∃ index, indexReaders env p = .ok index ∧ Indexes v p index := by
  have hnodup : p.readers.Nodup := hrun.stack.sublist (List.sublist_append_right _ _)
  obtain ⟨index,hindex,-⟩ := History.exists_foldlM (fun e => (hclean e).toBounded)
    (l := p.readers.reverse)
    (.new : History env p.metadata.blockSize p.metadata.numBlocks [] _) (by simpa using hnodup)
    (by simpa [BlockMap.Reader.new] using hlen)
  have hempty : (Reader.new p.metadata.blockSize p.metadata.numBlocks).Owned
      (owner v.data ([] : List DataFileEntry)) := Reader.new_owned _ _
  obtain ⟨hown,hrs,hsize⟩ := hempty.foldlM_pushReader id
    (fun e _ => ((hclean e).upTo (hbounded e)).toBounded) (fun e _ => hbounded e) hindex
  refine ⟨index,hindex,?_,by simpa [BlockMap.Reader.new] using hrs,hsize⟩
  simpa using hown

/-- The readers without a live block are those that `GetLiveBlocks` counts no block of. -/
theorem Indexes.getLiveBlocks (h : Indexes v p index)
    (hbounded : ∀ e x, new.numBlocks ≤ x → v.data e x = none) (hsize : new.SameSize p.metadata) :
    ∃ live, index.getLiveBlocks = .ok live ∧
      ∀ e ∈ p.readers, live.lookup (some e) = some 0 ↔ v.isLive p e = false := by
  obtain ⟨live,hlive,hcount,-⟩ := h.owned.getLiveBlocks_eq
  refine ⟨live,hlive,fun e he => ?_⟩
  rw [hcount e (by rw [h.listed]; exact List.mem_reverse.mpr he),Option.some_inj,
    h.owned.ownedBlocks_eq_zero]
  exact ⟨not_isLive_of_dead,dead_of_not_isLive hbounded hsize⟩

/-- The table is built from the blocks that the volume compacts. -/
theorem Indexes.indexReader (h : Indexes v p index) (hbs : 0 < p.metadata.blockSize)
    (hclean : ∀ e, (env e).Clean (v.data e))
    (hbounded : ∀ e x, p.metadata.numBlocks ≤ x → v.data e x = none) (zero : β)
    {chosen : List DataFileEntry} {logs : List String} (hnodup : chosen.Nodup)
    (hchosen : ∀ e ∈ chosen, e ∈ p.readers) (hlogs : logs.Nodup) (hlen : logs.length < 65535) :
    ∃ reader, Compaction.indexReader env zero p.metadata.blockSize p.metadata.numBlocks index chosen
        (logs.map logEntry) = .ok reader ∧ reader.Clean (v.compactedBlocks p chosen logs) := by
  have hrs : ∀ e ∈ chosen, e ∈ index.rs := by
    intro e he
    rw [h.listed]
    exact List.mem_reverse.mpr (hchosen e he)
  have hinj : Function.Injective logEntry := fun _ _ he => congrArg DataFileEntry.name he
  obtain ⟨reader,hr⟩ := Compaction.exists_indexReader zero h.owned h.size hbs hnodup hrs hclean
    hbounded (hlogs.map hinj) (by rwa [List.length_map])
  exact ⟨reader,hr,(Compaction.indexReader_blocks h.owned h.size hbs hnodup hrs
    (fun e _ => ⟨(hclean e).upTo (hbounded e),hbounded e⟩) hr).1⟩

/-- In every state of a volume the block map of the process counts as dead exactly the readers that
the volume drops, and gives for every choice of tables the blocks that the volume compacts. -/
theorem blockMap_agrees (hnew : new.dataFiles = []) (hbs : 0 < new.blockSize)
    {targetTableSize : ℕ} (h : Reached new targetTableSize ws v) (hnamed : v.named < 2^64-1)
    (hp : v.process = some p) (hlen : p.readers.length ≤ 65535)
    (hclean : ∀ e, (env e).Clean (v.data e)) (zero : β) :
    ∃ index, indexReaders env p = .ok index ∧
      (∃ live, index.getLiveBlocks = .ok live ∧
        ∀ e ∈ p.readers, live.lookup (some e) = some 0 ↔ v.isLive p e = false) ∧
      ∀ (chosen : List DataFileEntry) (logs : List String), chosen.Nodup →
        (∀ e ∈ chosen, e ∈ p.readers) → logs.Nodup → logs.length < 65535 →
        ∃ reader, Compaction.indexReader env zero p.metadata.blockSize p.metadata.numBlocks index
          chosen (logs.map logEntry) = .ok reader ∧
          reader.Clean (v.compactedBlocks p chosen logs) := by
  have hinv := Inv.of_reached hnew h (by omega)
  have hrun := hinv.running p hp
  obtain ⟨hblockSize,hnumBlocks⟩ := hrun.size
  obtain ⟨index,hindex,hindexes⟩ := exists_indexes hclean hinv.bounded hrun hlen
  exact ⟨index,hindex,hindexes.getLiveBlocks hinv.bounded hrun.size,
    fun chosen logs hnodup hchosen hlogs hlogs' => hindexes.indexReader (hblockSize ▸ hbs) hclean
      (hnumBlocks ▸ hinv.bounded) zero hnodup hchosen hlogs hlogs'⟩

end Volume
end Logblock
