import Logblock.WalWriter
import Logblock.Metadata

/-! Flushing and closing a device. The calls go from `BlockFile` through `tracker.Writer`
to one `WriteLog` for each file; the file may refuse to be flushed, to take the index that
`CloseWriter` appends, or to be closed. -/
namespace Logblock

open Loop Wal

/-- A line of the program's own log. -/
structure LogLine where
  msg : String
  name : Option String
  err : Error
  deriving DecidableEq, Repr

def errWriteNotSupported : Error := .new "write not supported"

structure WriteLog where
  name : String
  fileSize : ℤ
  -- only set when the log was created for writing
  log : Option Writer
  file : File
  -- what the file's `Flush` returns, if it has one
  flusher : Option (Option Error)
  -- how the file fails while the index is written
  indexFault : Option ℕ
  closeErr : Option Error

namespace WriteLog

variable (codec : Codec) (l : WriteLog)

def written : ℤ :=
  match l.log with
  | none => l.fileSize
  | some w => w.logSize

def flush : Option Error := l.flusher.getD none

def closeWriter : WriteLog × Option Error :=
  match l.log with
  | none => (l,some errWriteNotSupported)
  | some w =>
    match w.closeWriter codec l.file l.indexFault with
    | (w',f',some err) => ({ l with log := some w', file := f' },some err)
    | (w',f',none) => ({ l with log := some w', file := f' },l.flush)

/-- What `CloseWriter` of the log returns is not looked at. -/
def close : WriteLog × Option Error :=
  match l.log with
  | none => (l,l.closeErr)
  | some w =>
    let (w',f',_) := w.closeWriter codec l.file l.indexFault
    ({ l with log := some w', file := f' },l.closeErr)

/-- The writer has an index to append and the file does not take it. -/
def IndexFails : Prop :=
  ∃ w, l.log = some w ∧ w.isOpen = true ∧ w.offset ≠ 0 ∧
    l.file.fails (footerEntry.bytes++w.footerBytes codec).length l.indexFault = true

def FlushFails : Prop := ∃ err, l.flusher = some (some err)

/-- Closing loses something: the index or what the file still holds back. A writer that
was closed before has nothing left to lose. -/
def CloseFails : Prop := l.IndexFails codec ∨ l.closeErr ≠ none

theorem flush_eq_none : l.flush = none ↔ ¬l.FlushFails := by
  rcases h : l.flusher with _ | _ | err <;> simp [flush,FlushFails,h]

@[simp] theorem close_snd : (l.close codec).2 = l.closeErr := by
  cases h : l.log <;> simp [close,h]

@[simp] theorem close_name : (l.close codec).1.name = l.name := by
  cases h : l.log <;> simp [close,h]

/-- Writing the index does not count as written. -/
@[simp] theorem close_written : (l.close codec).1.written = l.written := by
  cases h : l.log with
  | none => simp [close,written,h]
  | some w =>
    simp only [close,written,h,Writer.closeWriter,Writer.logSize]
    split
    · split <;> rfl
    · rfl

end WriteLog

namespace Tracker

/-- The part of `tracker.Writer` that a flush and a close read. -/
structure Writer where
  activeWriter : Option WriteLog
  pendingWriters : List WriteLog
  writeCount : ℤ

namespace Writer

variable (codec : Codec) (m : Writer)

/-- Every log that has not been compacted. -/
def flushWriters : List WriteLog := m.pendingWriters++m.activeWriter.toList

/-- The old log's index is written in the background; a failure is only logged. -/
def pushNewLog (wl : WriteLog) : Writer × Option WriteLog × List LogLine :=
  match m.activeWriter with
  | none => ({ m with activeWriter := some wl },none,[])
  | some old =>
    let (old',err) := old.closeWriter codec
    ({ activeWriter := some wl, pendingWriters := m.pendingWriters++[old'], writeCount := 0 },
      some old',err.toList.map (LogLine.mk "Unable to close log writer" none))

/-- Each log is flushed on its own; the errors are logged. -/
def flush : List LogLine × Option Error :=
  (m.flushWriters.filterMap (fun w => w.flush.map (LogLine.mk "Unable to flush writer" (some w.name))),none)

/-- The names are those of the logs to which nothing was written. -/
def close : Writer × List LogLine × List String × Option Error :=
  let closed := m.flushWriters.map (WriteLog.close codec)
  ({ activeWriter := none
     pendingWriters := closed.map Prod.fst
     writeCount := if m.activeWriter.isSome then 0 else m.writeCount },
    closed.filterMap (fun c => c.2.map (LogLine.mk "Unable to close write log" (some c.1.name))),
    (closed.filter (fun c => c.1.written = 0)).map (fun c => c.1.name),none)

/-- A log that was never written to is empty before and after its closing. -/
theorem close_emptyLogs : (m.close codec).2.2.1 =
    (m.flushWriters.filter (fun l => l.written = 0)).map WriteLog.name := by
  simp only [close,List.filter_map,List.map_map]
  congr 1
  · funext l
    exact l.close_name codec
  · congr 1
    funext l
    simp only [Function.comp_apply,WriteLog.close_written]

end Writer
end Tracker

/-- The log files and how removing one fails. -/
structure LogStore where
  files : List String
  removeErr : String → Option Error

namespace LogStore

def remove (s : LogStore) (name : String) : LogStore × Option Error :=
  if name ∈ s.files then
    match s.removeErr name with
    | some err => (s,some err)
    | none => ({ s with files := s.files.erase name },none)
  else (s,some (.new "file does not exist"))

def removeAll (s : LogStore) : List String → LogStore × List LogLine
  | [] => (s,[])
  | name::names =>
    let (s',err) := s.remove name
    let (s'',lines) := s'.removeAll names
    (s'',err.toList.map (LogLine.mk "Error removing write log on close" (some name))++lines)

end LogStore

structure BlockFile where
  logSource : LogStore
  writerTracker : Tracker.Writer
  metadata : Metadata
  -- the text of the error of storing the metadata
  storeErr : Option String

namespace BlockFile

variable (codec : Codec) (bf : BlockFile)

/-- `SaveNoError` panics where `Save` fails. -/
def saveNoError : Exec Unit :=
  match bf.storeErr with
  | some err => .error (.panic err)
  | none => .ok ()

def flush : List LogLine × Option Error := bf.writerTracker.flush

def close : Exec (BlockFile × List LogLine × Option Error) :=
  let (wt,lines,emptyLogs,err) := bf.writerTracker.close codec
  if emptyLogs = [] then .ok ({ bf with writerTracker := wt },lines,err)
  else do
    bf.saveNoError
    let (ls,lines') := bf.logSource.removeAll emptyLogs
    .ok ({ bf with
      logSource := ls
      writerTracker := wt
      metadata := emptyLogs.foldl Metadata.removeWriteLog bf.metadata },lines++lines',err)

/-- What happens to the logs of an open device: writes change the active one, a rotation
puts a new one in its place. -/
inductive Event
  | write (l : WriteLog)
  | rotate (wl : WriteLog)

/-- The second part is what the rotation logs. -/
def step : Event → BlockFile × List LogLine
  | .write l =>
    ({ bf with writerTracker :=
        { bf.writerTracker with activeWriter := bf.writerTracker.activeWriter.map fun _ => l } },[])
  | .rotate wl =>
    let (wt,_,lines) := bf.writerTracker.pushNewLog codec wl
    ({ bf with writerTracker := wt, metadata := bf.metadata.pushWriteLog wl.name },lines)

/-- A device in use, with the failures of its rotations. -/
def run (codec : Codec) (bf : BlockFile) : List Event → BlockFile × List LogLine
  | [] => (bf,[])
  | e::es =>
    let (bf',lines) := bf.step codec e
    let (bf'',lines') := run codec bf' es
    (bf'',lines++lines')

/-- The logs of a device. -/
def logs : List WriteLog := bf.writerTracker.flushWriters

/-- A failure reaches the caller of each layer. `failed` are the failures of the rotations
before. -/
structure ReportsFailures (failed : List LogLine) : Prop where
  logFlush : ∀ l ∈ bf.logs, (l.flush = none ↔ ¬l.FlushFails)
  logClose : ∀ l ∈ bf.logs, ((l.close codec).2 = none ↔ ¬l.CloseFails codec)
  trackerFlush : bf.writerTracker.flush.2 = none ↔ ∀ l ∈ bf.logs, ¬l.FlushFails
  trackerClose : (bf.writerTracker.close codec).2.2.2 = none ↔
    failed = [] ∧ ∀ l ∈ bf.logs, ¬l.CloseFails codec
  flush : bf.flush.2 = none ↔ ∀ l ∈ bf.logs, ¬l.FlushFails
  close : ∃ bf' lines err, bf.close codec = .ok (bf',lines,err) ∧
    (err = none ↔ failed = [] ∧ ∀ l ∈ bf.logs, ¬l.CloseFails codec)

/-- No file refuses anything. -/
structure NothingFails (failed : List LogLine) : Prop where
  flush : ∀ l ∈ bf.logs, ¬l.FlushFails
  close : ∀ l ∈ bf.logs, ¬l.CloseFails codec
  rotate : failed = []

theorem step_storeErr (e : Event) : (bf.step codec e).1.storeErr = bf.storeErr := by
  cases e <;> rfl

theorem run_storeErr (es : List Event) : (bf.run codec es).1.storeErr = bf.storeErr := by
  induction es generalizing bf with
  | nil => rfl
  | cons e es ih =>
    rw [← bf.step_storeErr codec e]
    exact ih (bf.step codec e).1

/-- `Close` returns, and what it returns is never an error. -/
theorem exists_close (hstore : bf.storeErr = none) :
    ∃ bf' lines, bf.close codec = .ok (bf',lines,none) := by
  unfold close
  split
  rename_i wt lines emptyLogs err h
  have herr : none = err := congrArg (fun r => r.2.2.2) h
  subst herr
  split
  · exact ⟨_,_,rfl⟩
  · simp only [saveNoError,hstore,bind,Except.bind]
    exact ⟨_,_,rfl⟩

/-- The device reports failures exactly as long as there is none to report. -/
theorem reportsFailures_iff (hstore : bf.storeErr = none) (es : List Event) :
    (bf.run codec es).1.ReportsFailures codec (bf.run codec es).2 ↔
      (bf.run codec es).1.NothingFails codec (bf.run codec es).2 := by
  rw [← bf.run_storeErr codec es] at hstore
  generalize (bf.run codec es).1 = bf', (bf.run codec es).2 = failed at hstore ⊢
  constructor
  · intro h
    obtain ⟨hf,hl⟩ := h.trackerClose.1 rfl
    exact ⟨h.flush.1 rfl,hl,hf⟩
  · intro h
    obtain ⟨bf'',ls,hc⟩ := bf'.exists_close codec hstore
    refine
      { logFlush := fun l _ => l.flush_eq_none
        logClose := fun l hl => ?_
        trackerFlush := iff_of_true rfl h.flush
        trackerClose := iff_of_true rfl ⟨h.rotate,h.close⟩
        flush := iff_of_true rfl h.flush
        close := ⟨bf'',ls,none,hc,iff_of_true rfl ⟨h.rotate,h.close⟩⟩ }
    have hn := h.close l hl
    refine iff_of_true ?_ hn
    rw [WriteLog.close_snd]
    by_contra hne
    exact hn (.inr hne)

end BlockFile

namespace WriteLog

/-- A log that was created for writing and has no entry, in a file that flushes as given. -/
def fresh (name : String) (flushErr : Option Error) : WriteLog where
  name := name
  fileSize := 0
  log := some (.new none)
  file := .empty
  flusher := some flushErr
  indexFault := none
  closeErr := none

end WriteLog

namespace BlockFile

/-- A new device with the given log. -/
def withLog (l : WriteLog) : BlockFile where
  logSource := ⟨[l.name],fun _ => none⟩
  writerTracker := ⟨some l,[],0⟩
  metadata := ⟨512,8,[⟨.writeLog,l.name⟩]⟩
  storeErr := none

/-- The device after one rotation, with what the rotation logged. -/
def rotatedOnce : BlockFile × List LogLine :=
  (withLog (.fresh "wal-00000001" none)).run Wal.wireCodec [.rotate (.fresh "wal-00000002" none)]

theorem reportsFailures_rotatedOnce :
    (withLog (.fresh "wal-00000001" none)).storeErr = none ∧
      rotatedOnce.1.ReportsFailures Wal.wireCodec rotatedOnce.2 := by
  refine ⟨rfl,(reportsFailures_iff Wal.wireCodec _ rfl [.rotate (.fresh "wal-00000002" none)]).mpr ?_⟩
  have hlogs : rotatedOnce.1.logs =
      [.fresh "wal-00000001" none,.fresh "wal-00000002" none] := rfl
  refine ⟨fun l hl => ?_,fun l hl => ?_,rfl⟩
  · rcases List.mem_pair.mp (hlogs ▸ hl) with rfl | rfl <;> simp [WriteLog.FlushFails,WriteLog.fresh]
  · rcases List.mem_pair.mp (hlogs ▸ hl) with rfl | rfl <;>
      simp [WriteLog.CloseFails,WriteLog.IndexFails,WriteLog.fresh,Wal.Writer.new]

/-- The flush of the only log fails, and the device reports success. -/
theorem flush_failure_lost :
    (withLog (.fresh "wal-00000001" (some .device))).logs.map WriteLog.flush = [some .device] ∧
      (withLog (.fresh "wal-00000001" (some .device))).flush.2 = none ∧
      ¬(withLog (.fresh "wal-00000001" (some .device))).ReportsFailures Wal.wireCodec [] := by
  refine ⟨rfl,rfl,fun h => ?_⟩
  have hmem : WriteLog.fresh "wal-00000001" (some .device) ∈
      (withLog (.fresh "wal-00000001" (some .device))).logs := List.mem_singleton_self _
  exact h.flush.1 rfl _ hmem ⟨.device,rfl⟩

end BlockFile
end Logblock
