import Logblock.VolumeInvariant

/-! Names of files. As long as the sequence numbers of the tables do not run through all 64 bits,
every new name is unused, so that the metadata operations, which go by name, meet the entry they
are meant for. -/
namespace Logblock
namespace Volume

open Layers BlockMap FileNames

variable {β : Type}

/-- The names that the volume and a process of it use. -/
def usedNames (v : Volume β) (p : Process) : List String :=
  (v.savedFiles++(p.metadata.dataFiles++p.openFiles)).map (·.name)

/-- A process finds its files by their names. -/
structure ProcessNames (v : Volume β) (p : Process) : Prop where
  listed : (p.metadata.dataFiles.map (·.name)).Nodup
  logs : ∀ e ∈ p.metadata.dataFiles, e.type = .writeLog → (v.files e).isSome
  nextTable : p.generateNextTableName.1 ∉ v.usedNames p
  newLog : ∀ n v', v.makeLogWriter p n = some v' → logName n ∉ v.usedNames p
  compactWriteLog : ∀ log table, (p.metadata.compactWriteLog log table).dataFiles =
    p.metadata.dataFiles.map fun e => if e = logEntry log then tableEntry table else e
  removeWriteLog : ∀ log, (p.metadata.removeWriteLog log).dataFiles =
    p.metadata.dataFiles.filter (· ≠ logEntry log)
  removeSparseDataFile : ∀ table, (p.metadata.removeSparseDataFile table).dataFiles =
    p.metadata.dataFiles.filter (· ≠ tableEntry table)
  closeTable : ∀ targetTableSize v', v.move targetTableSize p .closeTable = some v' →
    ∀ e, e ∈ v.savedFiles ∨ e ∈ p.metadata.dataFiles ∨ e ∈ p.openFiles → v'.files e = v.files e

structure NamesUnambiguous (v : Volume β) : Prop where
  listed : (v.savedFiles.map (·.name)).Nodup
  logs : ∀ e ∈ v.savedFiles, e.type = .writeLog → (v.files e).isSome
  process : ∀ p, v.process = some p → ProcessNames v p

section Proof

variable {new : Metadata} {ws : List (Write β)} {v : Volume β} {p : Process}

theorem nodup_names {l : List DataFileEntry} {bound : ℕ} (h : l.Nodup)
    (hnamed : ∀ e ∈ l, WellNamed bound e) : (l.map (·.name)).Nodup :=
  h.map_on fun e he e' he' hname => (hnamed e he).eq_of_name (hnamed e' he') hname

theorem Inv.known_of_used (h : Inv new ws v) (hp : v.process = some p) {e : DataFileEntry}
    (he : e ∈ v.savedFiles++(p.metadata.dataFiles++p.openFiles)) :
    WellNamed p.nextSeq e ∧ (v.files e).isSome := by
  have hrun := h.running p hp
  rcases List.mem_append.mp he with he | he
  · exact ⟨hrun.savedKnown e he,(h.known e he).2⟩
  · exact hrun.known e (List.mem_append.mp he)

theorem Inv.processNames (h : Inv new ws v) (hp : v.process = some p) :
    ProcessNames v p := by
  have hrun := h.running p hp
  refine ⟨nodup_names hrun.nodup fun e he => (hrun.known e (.inl he)).1,
    fun e he _ => (hrun.known e (.inl he)).2,fun hname => ?_,fun n v' hv hname => ?_,
    Metadata.compactEntries_eq_map hrun.nodup,fun log => ?_,fun table => ?_,
    fun targetTableSize v' hv e he => ?_⟩
  · obtain ⟨e,he,hname⟩ := List.mem_map.mp hname
    have hknown := (h.known_of_used hp he).1
    obtain rfl := hknown.eq_of_name (wellNamed_table (Nat.lt_succ_self p.nextSeq)) hname
    exact not_wellNamed_next p.nextSeq hknown
  · obtain ⟨e,he,hname⟩ := List.mem_map.mp hname
    obtain ⟨hknown,hfile⟩ := h.known_of_used hp he
    obtain rfl := hknown.eq_of_name (wellNamed_log p.nextSeq n) hname
    rw [Volume.makeLogWriter] at hv
    split_ifs at hv with hn
    rw [Option.isNone_iff_eq_none.mp hn.2] at hfile
    cases hfile
  · rw [Metadata.removeWriteLog_dataFiles,hrun.nodup.erase_eq_filter]
    refine List.filter_congr fun e _ => ?_
    rw [Bool.eq_iff_iff,bne_iff_ne,decide_eq_true_iff]
    rfl
  · rw [Metadata.removeSparseDataFile_dataFiles,hrun.nodup.erase_eq_filter]
    refine List.filter_congr fun e _ => ?_
    rw [Bool.eq_iff_iff,bne_iff_ne,decide_eq_true_iff]
    rfl
  · simp only [Volume.move] at hv
    split at hv
    · next chosen logs table hphase =>
      cases hv
      have hin := hrun.inPhase
      rw [Process.InPhase,hphase] at hin
      obtain ⟨hsettled,_,_,htable,_⟩ := hin
      refine files_put_of_ne ?_
      rintro rfl
      refine htable ?_
      rw [← hsettled.stacked,List.mem_reverse]
      rcases he with he | he | he
      · exact he
      · rw [hsettled.same]
        exact he
      · rw [← List.mem_reverse,hsettled.stacked]
        simpa [Process.openFiles,Process.phaseFiles,hphase] using he
    · cases hv

/-- File names stay unambiguous in every history with fewer than `2^64-1` table names. -/
theorem names_unambiguous (hnew : new.dataFiles = []) {targetTableSize : ℕ}
    (h : Reached new targetTableSize ws v) (hnamed : v.named < 2^64-1) : NamesUnambiguous v := by
  have hinv := Inv.of_reached hnew h (by omega)
  exact ⟨nodup_names hinv.nodup fun e he => (hinv.known e he).1,
    fun e he _ => (hinv.known e he).2,fun p hp => hinv.processNames hp⟩

end Proof

section Sample

/-- The device is opened and gets the log of number `n`. -/
def opening (n : ℕ) : List Action :=
  [.openBlockFile,.makeLogWriter n,.pushWriteLog,.saveNewLog,.pushNewLog]

/-- The logs go to a table, and the metadata without the unused files is saved. -/
def compaction (n : ℕ) (unused : List DataFileEntry) : List Action :=
  List.append [.makeLogWriter n,.pushWriteLog,.saveNewLog,.pushNewLog,.createFile [],.closeTable,
    .pushCompactedReader,.compactWriteLog,.liveBlocks unused]
    (List.replicate unused.length Action.removeUnusedReader++[Action.saveUnused])

def sampleMetadata : Metadata := ⟨2^20,4,[]⟩

/-- The log 7 is compacted, and the process is gone before its file is. -/
def sampleRun : List (Write ℕ ⊕ Action) :=
  (opening 7).map Sum.inr++Sum.inl ⟨0,[5,6]⟩::
    (compaction 8 [logEntry (logName 7)]++[Action.exit]).map Sum.inr

theorem exists_sampleRun : ∃ v : Volume ℕ,
    Reached sampleMetadata (2^20) [⟨0,[5,6]⟩] v ∧
      Transition.after (next sampleMetadata (2^20)) empty sampleRun = .ok (some v) := by
  obtain ⟨v,hv,-⟩ := Transition.exists_of_view (f := fun _ => ()) (y := ())
    (show (Transition.after (next sampleMetadata (2^20)) empty sampleRun).toOption.join.map _ =
      some () by decide +kernel)
  refine ⟨v,Reached.empty.after (fun w hw => ?_) hv,hv⟩
  obtain rfl : w = ⟨0,[5,6]⟩ := by simpa [sampleRun] using hw
  exact (by decide : 0+2 ≤ 4)

/-- The file of the compacted log is left behind, and its name stays taken. -/
theorem names_unambiguous_after_crash : ∃ v : Volume ℕ,
    Reached sampleMetadata (2^20) [⟨0,[5,6]⟩] v ∧ v.named = 1 ∧ NamesUnambiguous v ∧
      v.savedFiles = [tableEntry "1.sparseblock",logEntry "wal-00000008"] ∧
      (v.files (logEntry "wal-00000007")).isSome := by
  obtain ⟨v,hreach,hv⟩ := exists_sampleRun
  have hview : (Transition.after (next sampleMetadata (2^20)) empty sampleRun).toOption.join.map
      (fun v => (v.named,v.savedFiles,(v.files (logEntry "wal-00000007")).isSome)) =
        some (1,[tableEntry "1.sparseblock",logEntry "wal-00000008"],true) := by decide +kernel
  rw [hv] at hview
  simp only [Except.toOption,Option.join_some,Option.map_some,Option.some.injEq,
    Prod.mk.injEq] at hview
  exact ⟨v,hreach,hview.1,names_unambiguous rfl hreach (by rw [hview.1]; norm_num),hview.2.1,
    hview.2.2⟩

end Sample

end Volume
end Logblock
