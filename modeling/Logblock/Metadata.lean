import Mathlib.Data.List.Basic
import Mathlib.Data.List.Nodup

/-! The metadata of a device: its dimensions and the list of its data files, oldest
first. Each change acts on the first entry of its type and name. -/
namespace Logblock

inductive DataFileType
  | writeLog
  | sparseTable
  deriving DecidableEq, Repr

/-- An entry of the list. -/
structure DataFileEntry where
  type : DataFileType
  name : String
  deriving DecidableEq, Repr

structure Metadata where
  blockSize : ℕ
  numBlocks : ℕ
  dataFiles : List DataFileEntry
  deriving DecidableEq, Repr

namespace Metadata

def isWriteLog (name : String) (df : DataFileEntry) : Bool :=
  df.type = .writeLog && df.name = name

def isSparseTable (name : String) (df : DataFileEntry) : Bool :=
  df.type = .sparseTable && df.name = name

def pushWriteLog (m : Metadata) (name : String) : Metadata :=
  { m with dataFiles := m.dataFiles++[⟨.writeLog,name⟩] }

def removeWriteLog (m : Metadata) (name : String) : Metadata :=
  { m with dataFiles := m.dataFiles.eraseP (isWriteLog name) }

/-- The first log of the name becomes the table, at the same place of the list. -/
def compactEntries (writeLogName sparseFileName : String) : List DataFileEntry → List DataFileEntry
  | [] => []
  | df::dfs =>
    if isWriteLog writeLogName df then ⟨.sparseTable,sparseFileName⟩::dfs
    else df::compactEntries writeLogName sparseFileName dfs

def compactWriteLog (m : Metadata) (writeLogName sparseFileName : String) : Metadata :=
  { m with dataFiles := compactEntries writeLogName sparseFileName m.dataFiles }

def removeSparseDataFile (m : Metadata) (name : String) : Metadata :=
  { m with dataFiles := m.dataFiles.eraseP (isSparseTable name) }

theorem isWriteLog_iff {name : String} {df : DataFileEntry} :
    isWriteLog name df = true ↔ df = ⟨.writeLog,name⟩ := by
  cases df
  simp [isWriteLog]

theorem isSparseTable_iff {name : String} {df : DataFileEntry} :
    isSparseTable name df = true ↔ df = ⟨.sparseTable,name⟩ := by
  cases df
  simp [isSparseTable]

theorem removeWriteLog_dataFiles (m : Metadata) (name : String) :
    (m.removeWriteLog name).dataFiles = m.dataFiles.erase ⟨.writeLog,name⟩ := by
  have heq : isWriteLog name = fun df => (⟨.writeLog,name⟩ : DataFileEntry) == df := by
    funext df
    rw [Bool.eq_iff_iff,isWriteLog_iff,beq_iff_eq,eq_comm]
  rw [removeWriteLog,List.erase_eq_eraseP,heq]

theorem removeSparseDataFile_dataFiles (m : Metadata) (name : String) :
    (m.removeSparseDataFile name).dataFiles = m.dataFiles.erase ⟨.sparseTable,name⟩ := by
  have heq : isSparseTable name = fun df => (⟨.sparseTable,name⟩ : DataFileEntry) == df := by
    funext df
    rw [Bool.eq_iff_iff,isSparseTable_iff,beq_iff_eq,eq_comm]
  rw [removeSparseDataFile,List.erase_eq_eraseP,heq]

/-- In a list without a second entry of the log, its entry alone is replaced. -/
theorem compactEntries_eq_map {l : List DataFileEntry} (h : l.Nodup) (log table : String) :
    compactEntries log table l =
      l.map fun df => if df = ⟨.writeLog,log⟩ then ⟨.sparseTable,table⟩ else df := by
  induction l with
  | nil => rfl
  | cons df dfs ih =>
    obtain ⟨hdf,hdfs⟩ := List.nodup_cons.mp h
    rw [compactEntries,List.map_cons]
    by_cases hlog : df = ⟨.writeLog,log⟩
    · rw [if_pos (isWriteLog_iff.mpr hlog),if_pos hlog]
      congr 1
      refine ((List.map_congr_left fun df' hdf' => ?_).trans (List.map_id dfs)).symm
      rw [if_neg]
      · rfl
      · rintro rfl
        exact hdf (hlog ▸ hdf')
    · rw [if_neg (mt isWriteLog_iff.mp hlog),if_neg hlog,ih hdfs]

/-- The table takes the place of the log in the order of the list, newest first. -/
theorem compactEntries_reverse {l front rest : List DataFileEntry} {log : String}
    (table : String) (h : l.Nodup) (hl : l.reverse = front++⟨.writeLog,log⟩::rest) :
    (compactEntries log table l).reverse = front++⟨.sparseTable,table⟩::rest := by
  have hnodup := List.nodup_reverse.mpr h
  rw [hl,List.nodup_middle,List.nodup_cons] at hnodup
  have hother : ∀ l' : List DataFileEntry, (∀ df ∈ l', df ∈ front++rest) →
      (l'.map fun df => if df = ⟨.writeLog,log⟩ then ⟨.sparseTable,table⟩ else df) = l' := by
    intro l' hl'
    refine (List.map_congr_left fun df hdf => ?_).trans (List.map_id l')
    rw [if_neg]
    · rfl
    · rintro rfl
      exact hnodup.1 (hl' _ hdf)
  rw [compactEntries_eq_map h,← List.map_reverse,hl,List.map_append,List.map_cons,if_pos rfl,
    hother front fun df hdf => List.mem_append_left _ hdf,
    hother rest fun df hdf => List.mem_append_right _ hdf]

end Metadata
end Logblock
