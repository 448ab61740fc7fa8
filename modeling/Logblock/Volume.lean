import Logblock.Compaction
import Logblock.FileNames
import Logblock.Transition

/-! A device over its whole life. It is opened, written, compacted and closed, and the process may
be gone between any two effects on the files. What stays is the metadata that was saved last and
the files, each with the blocks it holds. -/
namespace Logblock

open Layers Loop BlockMap FileNames

variable {β : Type}

def logEntry (name : String) : DataFileEntry := ⟨.writeLog,name⟩

def tableEntry (name : String) : DataFileEntry := ⟨.sparseTable,name⟩

/-- `RemoveWriteLog` or `RemoveSparseDataFile`, by the type of the file. -/
def Metadata.removeDataFile (m : Metadata) (e : DataFileEntry) : Metadata :=
  match e.type with
  | .writeLog => m.removeWriteLog e.name
  | .sparseTable => m.removeSparseDataFile e.name

theorem Metadata.removeDataFile_dataFiles (m : Metadata) (e : DataFileEntry) :
    (m.removeDataFile e).dataFiles = m.dataFiles.erase e := by
  rcases e with ⟨_ | _,name⟩
  · exact m.removeWriteLog_dataFiles name
  · exact m.removeSparseDataFile_dataFiles name

/-- The dimensions of a device never change. -/
def Metadata.SameSize (new m : Metadata) : Prop :=
  m.blockSize = new.blockSize ∧ m.numBlocks = new.numBlocks

theorem Metadata.SameSize.removeDataFile {new m : Metadata} (h : new.SameSize m)
    (e : DataFileEntry) : new.SameSize (m.removeDataFile e) := by
  rcases e with ⟨_ | _,name⟩ <;> exact h

namespace Volume

/-- A call of `WriteBlocks`, with the blocks from `index` on. -/
structure Write (β : Type) where
  index : ℕ
  blocks : List β

def Write.payload (w : Write β) (x : ℕ) : Option β :=
  if w.index ≤ x then w.blocks[x-w.index]? else none

def Write.InRange (numBlocks : ℕ) (w : Write β) : Prop := w.index+w.blocks.length ≤ numBlocks

/-- What a file has: a log the writes appended to it, the last one first. -/
inductive FileData (β : Type)
  | log (writes : List (Write β))
  | table (blocks : ℕ → Option β)

def FileData.blocks : FileData β → ℕ → Option β
  | log writes => newest Write.payload writes
  | table blocks => blocks

/-- A write without blocks appends nothing. -/
def appendWrite (w : Write β) (writes : List (Write β)) : List (Write β) :=
  if w.blocks = [] then writes else w::writes

/-- Where a process is: in `OpenBlockFileWithOptions`, in `rotateNewWriteLog`, in
`compactPendingWriters`, in `Close`, or in none of them. -/
inductive Phase
  -- the files of the metadata are loaded
  | loaded
  -- `makeLogWriter`, `PushWriteLog` and `Save`, when the device is opened and in a rotation
  | created (log : String)
  | listed (log : String)
  | saved (log : String)
  | idle
  | rotated
  -- the blocks of the chosen tables and of the logs go to a table of this name
  | named (chosen : List DataFileEntry) (logs : List String) (table : String)
  -- the table is closed and opened again
  | built (logs : List String) (table : String)
  -- `PushCompactedReader` and `RemovePending`
  | replaced (logs : List String) (table : String)
  -- `CompactWriteLog`
  | compacted
  -- `removeUnusedTables`, before its call of `Save` and after it
  | removing (todo removed : List DataFileEntry)
  | deleting (todo : List DataFileEntry)
  -- `Close` with the empty logs, before its call of `Save` and after it
  | closed (emptyLogs : List String)
  | cleaning (todo : List String)

/-- The variables of `BlockFile`; the readers in the order of the block map, the one pushed last
first. -/
structure Process where
  metadata : Metadata
  nextSeq : ℕ
  readers : List DataFileEntry
  activeWriter : Option String
  pendingWriters : List String
  writeCount : ℕ
  phase : Phase

end Volume

/-- The ghost count `named` is the number of calls of `generateNextTableName` so far. -/
structure Volume (β : Type) where
  saved : Option Metadata
  files : DataFileEntry → Option (Volume.FileData β)
  process : Option Volume.Process
  named : ℕ

namespace Volume

inductive Action
  | openBlockFile
  | makeLogWriter (n : ℕ)
  | pushWriteLog
  | saveNewLog
  | pushNewLog
  | createFile (chosen : List DataFileEntry)
  | closeTable
  | pushCompactedReader
  | compactWriteLog
  -- the readers without a live block, in the order of the map
  | liveBlocks (unused : List DataFileEntry)
  | removeUnusedReader
  | saveUnused
  | removeFile
  | compactionDone
  | closeWriters
  | saveEmpty
  | removeLog
  -- the process ends, by a crash or after `Close`
  | exit

namespace Process

variable (p : Process)

def active : List DataFileEntry := p.activeWriter.toList.map logEntry

/-- The active log over the readers. -/
def stack : List DataFileEntry := p.active++p.readers

/-- The pass of the loading loop for one file. -/
def pushDataFile (e : DataFileEntry) : Process :=
  match e.type with
  | .writeLog => {p with readers := e::p.readers, pendingWriters := p.pendingWriters++[e.name]}
  | .sparseTable =>
    match tableSeq e.name with
    | none => {p with readers := e::p.readers}
    | some seq => {p with
        readers := e::p.readers
        nextSeq := if p.nextSeq ≤ seq then (seq+1)%2^64 else p.nextSeq}

def generateNextTableName : String × Process :=
  (tableName p.nextSeq,{p with nextSeq := (p.nextSeq+1)%2^64})

/-- The files that the phase has open besides those of the stack. -/
def phaseFiles : List DataFileEntry :=
  match p.phase with
  | .created log | .listed log | .saved log => [logEntry log]
  | .built _ table => [tableEntry table]
  | .removing _ removed => removed
  | .deleting todo => todo
  | _ => []

/-- `Close` closes the logs only. -/
def openFiles : List DataFileEntry :=
  match p.phase with
  | .closed _ | .cleaning _ => p.readers.filter fun e => e.type = .sparseTable
  | _ => p.stack++p.phaseFiles

end Process

section Methods

variable (v : Volume β)

def empty : Volume β := ⟨none,fun _ => none,none,0⟩

/-- The list that is loaded when the device is opened. -/
def savedFiles : List DataFileEntry := (v.saved.map Metadata.dataFiles).getD []

def data (e : DataFileEntry) (x : ℕ) : Option β := (v.files e).bind fun d => d.blocks x

/-- `none` if a file is missing. -/
def loadDataFiles : List DataFileEntry → Process → Option Process
  | [], p => some p
  | e::es, p => if (v.files e).isSome then loadDataFiles es (p.pushDataFile e) else none

/-- The metadata of a device that is opened for the first time is `new`. -/
def openBlockFile (new : Metadata) : Option Process :=
  let m := v.saved.getD new
  v.loadDataFiles m.dataFiles ⟨m,1,[],none,[],0,.loaded⟩

/-- A file is changed and the process goes on. -/
def put (e : DataFileEntry) (d : Option (FileData β)) (p : Process) : Volume β :=
  {v with files := Function.update v.files e d, process := some p}

/-- Without an active log the call fails. -/
def writeBlocks (w : Write β) : Option (Volume β) := do
  let p ← v.process
  let log ← p.activeWriter
  match v.files (logEntry log) with
  | some (.log writes) => some (v.put (logEntry log) (some (.log (appendWrite w writes)))
      {p with writeCount := p.writeCount+w.blocks.length*p.metadata.blockSize})
  | _ => none

def makeLogWriter (p : Process) (n : ℕ) : Option (Volume β) :=
  if n < 10000000 ∧ (v.files (logEntry (logName n))).isNone then
    some (v.put (logEntry (logName n)) (some (.log [])) {p with phase := .created (logName n)})
  else none

/-- What `compactToFile` writes: the blocks of the logs, and under them those that the chosen
tables own. -/
def compactedBlocks (p : Process) (chosen : List DataFileEntry) (logs : List String) :
    ℕ → Option β :=
  Compaction.compactedBlocks v.data p.readers chosen (logs.map logEntry)

/-- `GetLiveBlocks` counts a block of the file. -/
def isLive (p : Process) (e : DataFileEntry) : Bool :=
  (List.range p.metadata.numBlocks).any fun x => owner v.data p.readers x = some e

/-- The logs without a write. -/
def emptyLogs (p : Process) : List String :=
  (p.pendingWriters++p.activeWriter.toList).filter fun log =>
    match v.files (logEntry log) with
    | some (.log []) => true
    | _ => false

/-- The steps of a process. A log is rotated when enough was written to it. -/
def move (targetTableSize : ℕ) (p : Process) : Action → Option (Volume β)
  | .makeLogWriter n =>
    match p.phase with
    | .loaded => v.makeLogWriter p n
    | .idle => if targetTableSize ≤ p.writeCount then v.makeLogWriter p n else none
    | _ => none
  | .pushWriteLog =>
    match p.phase with
    | .created log => some {v with process := some {p with
        metadata := p.metadata.pushWriteLog log, phase := .listed log}}
    | _ => none
  | .saveNewLog =>
    match p.phase with
    | .listed log => some {v with
        saved := some p.metadata, process := some {p with phase := .saved log}}
    | _ => none
  | .pushNewLog =>
    match p.phase with
    | .saved log =>
      match p.activeWriter with
      | none => some {v with process := some {p with activeWriter := some log, phase := .idle}}
      | some old => some {v with process := some {p with
          readers := logEntry old::p.readers
          activeWriter := some log
          pendingWriters := p.pendingWriters++[old]
          writeCount := 0
          phase := .rotated}}
    | _ => none
  | .createFile chosen =>
    match p.phase with
    | .rotated =>
      if ∀ e ∈ chosen, e ∈ p.readers ∧ e.type = .sparseTable then
        let (table,p') := p.generateNextTableName
        some {v with
          process := some {p' with phase := .named chosen p.pendingWriters table}
          named := v.named+1}
      else none
    | _ => none
  | .closeTable =>
    match p.phase with
    | .named chosen logs table => some (v.put (tableEntry table)
        (some (.table (v.compactedBlocks p chosen logs))) {p with phase := .built logs table})
    | _ => none
  | .pushCompactedReader =>
    match p.phase with
    | .built logs table => some {v with process := some {p with
        readers := tableEntry table::p.readers
        pendingWriters := logs.foldl List.erase p.pendingWriters
        phase := .replaced logs table}}
    | _ => none
  | .compactWriteLog =>
    match p.phase with
    | .replaced logs table =>
      match logs.getLast? with
      | none => none
      | some last => some {v with process := some {p with
          metadata := p.metadata.compactWriteLog last table, phase := .compacted}}
    | _ => none
  | .liveBlocks unused =>
    match p.phase with
    | .compacted =>
      if unused.Perm (p.readers.filter fun e => !v.isLive p e) then
        some {v with process := some {p with phase := .removing unused []}}
      else none
    | _ => none
  | .removeUnusedReader =>
    match p.phase with
    | .removing (e::todo) removed => some {v with process := some {p with
        metadata := p.metadata.removeDataFile e
        readers := p.readers.erase e
        phase := .removing todo (removed++[e])}}
    | _ => none
  | .saveUnused =>
    match p.phase with
    | .removing [] removed => some {v with
        saved := if removed = [] then v.saved else some p.metadata
        process := some {p with phase := .deleting removed}}
    | _ => none
  | .removeFile =>
    match p.phase with
    | .deleting (e::todo) => some (v.put e none {p with phase := .deleting todo})
    | _ => none
  | .compactionDone =>
    match p.phase with
    | .deleting [] => some {v with process := some {p with phase := .idle}}
    | _ => none
  | .closeWriters =>
    match p.phase with
    | .idle => some {v with process := some {p with
        activeWriter := none
        pendingWriters := p.pendingWriters++p.activeWriter.toList
        writeCount := 0
        phase := .closed (v.emptyLogs p)}}
    | _ => none
  | .saveEmpty =>
    match p.phase with
    | .closed logs =>
      let m := logs.foldl Metadata.removeWriteLog p.metadata
      some {v with
        saved := if logs = [] then v.saved else some m
        process := some {p with metadata := m, phase := .cleaning logs}}
    | _ => none
  | .removeLog =>
    match p.phase with
    | .cleaning (log::todo) => some (v.put (logEntry log) none {p with phase := .cleaning todo})
    | _ => none
  | .openBlockFile | .exit => none

/-- One step: a process starts, goes on or ends. -/
def step (new : Metadata) (targetTableSize : ℕ) (a : Action) : Option (Volume β) :=
  match a, v.process with
  | .exit, _ => some {v with process := none}
  | .openBlockFile, none => do
    let p ← v.openBlockFile new
    some {v with process := some p}
  | _, none => none
  | a, some p => v.move targetTableSize p a

end Methods

/-- The volume is reached from an empty one, with the writes that were done, the last one first. -/
inductive Reached (new : Metadata) (targetTableSize : ℕ) : List (Write β) → Volume β → Prop
  | empty : Reached new targetTableSize [] empty
  | write {ws : List (Write β)} {v v' : Volume β} (w : Write β) :
      Reached new targetTableSize ws v → w.InRange new.numBlocks → v.writeBlocks w = some v' →
      Reached new targetTableSize (w::ws) v'
  | step {ws : List (Write β)} {v v' : Volume β} (a : Action) :
      Reached new targetTableSize ws v → v.step new targetTableSize a = some v' →
      Reached new targetTableSize ws v'

/-- A write or a step, if it is enabled. -/
def next (new : Metadata) (targetTableSize : ℕ) (v : Volume β) :
    Write β ⊕ Action → Exec (Option (Volume β))
  | .inl w => .ok (v.writeBlocks w)
  | .inr a => .ok (v.step new targetTableSize a)

theorem Reached.after {new : Metadata} {targetTableSize : ℕ} {ws : List (Write β)}
    {v v' : Volume β} {es : List (Write β ⊕ Action)} (h : Reached new targetTableSize ws v)
    (hes : ∀ w, .inl w ∈ es → w.InRange new.numBlocks)
    (hv : Transition.after (next new targetTableSize) v es = .ok (some v')) :
    Reached new targetTableSize ((es.filterMap Sum.getLeft?).reverse++ws) v' := by
  induction es generalizing v ws with
  | nil =>
    cases hv
    exact h
  | cons e es ih =>
    have hes' : ∀ w, .inl w ∈ es → w.InRange new.numBlocks := fun w hw =>
      hes w (List.mem_cons_of_mem e hw)
    obtain ⟨u,hu,hrest⟩ := Transition.exists_of_after_cons hv
    rcases e with w | a
    · simpa using ih (h.write w (hes w List.mem_cons_self) (Except.ok.inj hu)) hes' hrest
    · exact ih (h.step a (Except.ok.inj hu)) hes' hrest

end Volume
end Logblock
