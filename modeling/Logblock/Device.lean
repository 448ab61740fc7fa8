import Logblock.BlockLog
import Logblock.Compaction
import Logblock.TrackerContent

/-! The device in use. Writes go to the active log, the goroutine of `compactWriter` rotates the
log, compacts what was rotated and drops what the compacted table replaces, and the merge loop
indexes readers in between. Each critical section is one step. -/
namespace Logblock

open Loop Transition ByteStream BlockHoleReader BlockMap Tracker Layers BlockLog Readers

variable {σ : Type}

/-- What a device is made of: its size and its write logs, with a new log, `WriteBlocks`,
`CloseWriter` together with the fault it meets, and the log as a reader. -/
structure Backend (σ : Type) where
  blockSize : ℕ
  numBlocks : ℕ
  newLog : σ
  writeBlocks : σ → List UInt8 → ℕ → Exec (σ × ℕ × Option Error)
  closeWriter : σ → Option ℕ → σ
  reader : σ → BlockHoleReader (List UInt8)

/-- A log reads back what was written to it, also after it was closed. `InUse` is a log that may
be written, `Holds` one that may be read, with its blocks. -/
structure Backend.Keeps (b : Backend σ) (InUse Holds : σ → (ℕ → Option (List UInt8)) → Prop) :
    Prop where
  new : InUse b.newLog fun _ => none
  write : ∀ {s data} (buf : List UInt8) (index : ℕ), InUse s data →
    buf.length%b.blockSize = 0 → index+buf.length/b.blockSize ≤ b.numBlocks →
    ∃ s' n err, b.writeBlocks s buf index = .ok (s',n,err) ∧
      (err = none → InUse s' (putBlocks b.blockSize buf index data)) ∧
      (err ≠ none → InUse s' data)
  holds : ∀ {s data}, InUse s data → Holds s data
  close : ∀ {s data}, Holds s data → ∀ fault, Holds (b.closeWriter s fault) data
  clean : ∀ {s data}, Holds s data → ((b.reader s).upTo b.numBlocks).Clean data
  bounded : ∀ {s data}, Holds s data → ∀ x, b.numBlocks ≤ x → data x = none

section Wal

variable (codec : Wal.Codec) (rf : Option ℕ) (blockSize numBlocks : ℕ)

/-- A device whose logs are write-ahead logs in files that take every write. -/
def walBackend : Backend ReadableLog where
  blockSize := blockSize
  numBlocks := numBlocks
  newLog := .new rf
  writeBlocks l buf index := l.writeBlocks codec blockSize buf index ⟨none,none⟩
  closeWriter l fault :=
    let (w,file,_) := l.w.closeWriter codec l.file fault
    ⟨w,file⟩
  reader l := l.reader.blocks blockSize

/-- The log has the blocks of some operations on the device. -/
def LogHolds (Kind : Wal.Codec → Wal.Writer → File → List Wal.Op → Prop) (l : ReadableLog)
    (data : ℕ → Option (List UInt8)) : Prop :=
  ∃ ops, Kind codec l.w l.file ops ∧ OnDevice blockSize numBlocks ops ∧
    data = blockAt blockSize (Wal.stored ops)

variable {blockSize numBlocks}

theorem walBackend_keeps (hbs : 0 < blockSize) (hsmall : numBlocks*blockSize < 2^63) :
    (walBackend codec rf blockSize numBlocks).Keeps
      (LogHolds codec blockSize numBlocks Wal.Active)
      (LogHolds codec blockSize numBlocks Wal.ReadsLike) where
  new := by
    refine ⟨[],.inl (Wal.Kept.new codec rf),fun _ hop => (by cases hop),?_⟩
    funext k
    rfl
  write := by
    rintro l data buf index ⟨ops,hactive,hops,rfl⟩ hmod hin
    by_cases hmax : buf.length ≤ Wal.maxWriteSize
    · obtain ⟨l',n,err,hcall,hok,hfail⟩ := writeBlocks_active hactive hops hbs hsmall
        (Nat.dvd_of_mod_eq_zero hmod) hmax hin
      refine ⟨l',n,err,hcall,fun he => ?_,fun he => ⟨ops,(hfail he).2,hops,rfl⟩⟩
      obtain ⟨ops',hactive',hops',hdata⟩ := hok he
      exact ⟨ops',hactive',hops',hdata.symm⟩
    · refine ⟨l,0,some Wal.errWriteTooBig,?_,fun he => (by cases he),fun _ =>
        ⟨ops,hactive,hops,rfl⟩⟩
      have hmod' : ¬buf.length%blockSize ≠ 0 := not_not.mpr hmod
      show l.writeBlocks codec blockSize buf index ⟨none,none⟩ = _
      rw [ReadableLog.writeBlocks,if_neg hmod',Wal.Writer.writeAt,if_neg (by omega),
        if_pos (by omega)]
      simp only [bind,Except.bind,Nat.zero_div]
  holds := by
    rintro l data ⟨ops,hactive,hops,rfl⟩
    exact ⟨ops,hactive.readsLike,hops,rfl⟩
  close := by
    rintro l data ⟨ops,⟨w,f,tail,hkept,hindex,hend,hfile⟩,hops,rfl⟩ fault
    rcases hclose : l.w.closeWriter codec l.file fault with ⟨w',f',err⟩
    obtain ⟨hindex',hend',tail',hfile'⟩ := Wal.Writer.closeWriter_eq hclose
    refine ⟨ops,⟨w,f,tail++tail',hkept,?_⟩,hops,rfl⟩
    simp only [walBackend,hclose]
    exact ⟨hindex'.trans hindex,hend'.trans hend,by rw [hfile',hfile,List.append_assoc]⟩
  clean := by
    rintro l data ⟨ops,hreads,hops,rfl⟩
    exact clean_of_readsLike hreads hops hbs hsmall
  bounded := by
    rintro l data ⟨ops,_,hops,rfl⟩ x hx
    exact hops.bounded hx

end Wal

inductive DataFile (σ : Type)
  | log (s : σ)
  | table (r : BlockHoleReader (List UInt8))

/-- Where the goroutine of `compactWriter` stands. -/
inductive Phase
  | idle
  -- `PushWriter` has put the new log into the reader stack
  | created (log : ℕ)
  -- `PushNewLog` has swapped the logs
  | swapped (old : ℕ)
  -- `PushReader` of the old log is done, `RemoveWriter` is not
  | pushed (old : ℕ)
  | rotated
  -- `StartCompaction` has given the compaction `i`
  | compacting (i : ℕ)
  -- the table with the blocks of `logs` is closed and opened again
  | built (i : ℕ) (logs : List ℕ) (table : ℕ)
  -- `PushCompactedReader`
  | replacing (i : ℕ) (logs : List ℕ)
  -- `removeUnusedTables`
  | removing (i : ℕ)

namespace Phase

/-- The tracker's writers, the newest first. -/
def writers (active : ℕ) : Phase → List ℕ
  | created log => [log,active]
  | swapped old | pushed old => [active,old]
  | _ => [active]

/-- The call of the tracker that the goroutine makes next, with the phase it leads to; `started` is
the number of the compaction that a call of `StartCompaction` gets. The merge loop goes on in every
phase. -/
def next (started : ℕ) : Phase → Tracker.Action ℕ → Option Phase
  | swapped old, .pushReader r => if r = old then some (pushed old) else none
  | pushed old, .removeWriter w => if w = old then some rotated else none
  | rotated, .startCompaction => some (compacting started)
  | built i logs table, .pushCompacted j r =>
    if j = i ∧ r = table then some (replacing i logs) else none
  | replacing i logs, .compactedPass j => if j = i then some (replacing i logs) else none
  | removing i, .countLive j => if j = i then some (removing i) else none
  | removing i, .removeUnused j _ => if j = i then some (removing i) else none
  | removing i, .done j => if j = i then some idle else none
  | ph, a => if a.ofMerge then some ph else none

/-- The calls of `next`. -/
inductive Next (started : ℕ) : Phase → Tracker.Action ℕ → Phase → Prop
  | pushReader (old : ℕ) : Next started (swapped old) (.pushReader old) (pushed old)
  | removeWriter (old : ℕ) : Next started (pushed old) (.removeWriter old) rotated
  | startCompaction : Next started rotated .startCompaction (compacting started)
  | pushCompacted (i : ℕ) (logs : List ℕ) (table : ℕ) :
      Next started (built i logs table) (.pushCompacted i table) (replacing i logs)
  | compactedPass (i : ℕ) (logs : List ℕ) :
      Next started (replacing i logs) (.compactedPass i) (replacing i logs)
  | countLive (i : ℕ) : Next started (removing i) (.countLive i) (removing i)
  | removeUnused (i r : ℕ) : Next started (removing i) (.removeUnused i r) (removing i)
  | done (i : ℕ) : Next started (removing i) (.done i) idle
  | merge (ph : Phase) {a : Tracker.Action ℕ} (h : a.ofMerge = true) : Next started ph a ph

theorem next_cases {started : ℕ} {ph ph' : Phase} {a : Tracker.Action ℕ}
    (h : ph.next started a = some ph') : Next started ph a ph' := by
  rw [next.eq_def] at h
  split at h
  all_goals try split_ifs at h with hif
  all_goals cases h
  · cases hif
    exact .pushReader _
  · cases hif
    exact .removeWriter _
  · exact .startCompaction
  · obtain ⟨rfl,rfl⟩ := hif
    exact .pushCompacted _ _ _
  · cases hif
    exact .compactedPass _ _
  · cases hif
    exact .countLive _
  · cases hif
    exact .removeUnused _ _
  · cases hif
    exact .done _
  · exact .merge _ hif

end Phase

/-- The files are numbered in the order of their creation. -/
structure Device (σ : Type) where
  files : ℕ → DataFile σ
  created : ℕ
  activeWriter : ℕ
  pendingWriters : List ℕ
  -- the old logs whose `CloseWriter` has not run yet
  closing : List ℕ
  phase : Phase
  tracker : Tracker.Config ℕ

inductive DeviceAction
  -- `makeLogWriter` and `PushWriter`
  | pushWriter
  | pushNewLog
  | closeWriter (i : ℕ) (fault : Option ℕ)
  -- `compactToFile` and `openTableFile`, with the chosen tables and the table that is opened
  | build (chosen : List ℕ) (r : BlockHoleReader (List UInt8))
  | removePending
  | track (a : Tracker.Action ℕ)

namespace Device

section Methods

variable (b : Backend σ) (d : Device σ)

/-- A new device with its first log. -/
def new : Device σ where
  files _ := .log b.newLog
  created := 1
  activeWriter := 0
  pendingWriters := []
  closing := []
  phase := .idle
  tracker := {Config.new b.blockSize b.numBlocks with
    reader := (Tracker.Reader.new b.blockSize b.numBlocks).pushWriter 0}

def zeroBlock : List UInt8 := List.replicate b.blockSize 0

def env (i : ℕ) : BlockHoleReader (List UInt8) :=
  match d.files i with
  | .log s => b.reader s
  | .table r => r

/-- The stack that `buildReaderStack` makes. -/
def readerStack : StackedBlockReader (List UInt8) where
  rs := (d.tracker.reader.writers++d.tracker.reader.pendingReaders).map (d.env b)++
    [d.tracker.reader.primaryIndex.blocks (d.env b) (zeroBlock b)]
  blockSize := b.blockSize
  numBlocks := b.numBlocks

def readBlocks (len off : ℕ) : Exec (ReadResult (List UInt8)) :=
  (d.readerStack b).readBlocks (zeroBlock b) len off

def writeBlocks (buf : List UInt8) (index : ℕ) : Exec (Device σ × ℕ × Option Error) :=
  match d.files d.activeWriter with
  | .log s => do
    let (s',n,err) ← b.writeBlocks s buf index
    .ok ({d with files := Function.update d.files d.activeWriter (.log s')},n,err)
  | .table _ => .error (.panic "interface conversion: not a TrackedWriter")

def addFile (f : DataFile σ) : Device σ :=
  {d with files := Function.update d.files d.created f, created := d.created+1}

/-- The reader of which `compactPendingWriters` builds the table. -/
def indexReader (chosen : List ℕ) : Exec (BlockHoleReader (List UInt8)) :=
  Compaction.indexReader (d.env b) (zeroBlock b) b.blockSize b.numBlocks
    d.tracker.reader.primaryIndex chosen d.pendingWriters

def step : DeviceAction → Exec (Option (Device σ))
  | .pushWriter =>
    match d.phase with
    | .idle => .ok (some {d.addFile (.log b.newLog) with
        phase := .created d.created
        tracker := {d.tracker with reader := d.tracker.reader.pushWriter d.created}})
    | _ => .ok none
  | .pushNewLog =>
    match d.phase with
    | .created log => .ok (some {d with
        activeWriter := log
        pendingWriters := d.pendingWriters++[d.activeWriter]
        closing := d.activeWriter::d.closing
        phase := .swapped d.activeWriter})
    | _ => .ok none
  | .closeWriter i fault =>
    match d.files i with
    | .log s => .ok (if i ∈ d.closing then some {d with
        files := Function.update d.files i (.log (b.closeWriter s fault))
        closing := d.closing.erase i} else none)
    | .table _ => .ok none
  | .build chosen r =>
    match d.phase with
    | .compacting i => do
      let _ ← d.indexReader b chosen
      .ok (some {d.addFile (.table r) with phase := .built i d.pendingWriters d.created})
    | _ => .ok none
  | .removePending =>
    match d.phase with
    | .replacing i logs =>
      match d.tracker.holders i with
      | some .idle => .ok (some {d with
          pendingWriters := logs.foldl List.erase d.pendingWriters
          phase := .removing i})
      | _ => .ok none
    | _ => .ok none
  | .track a =>
    match d.phase.next d.tracker.started a with
    | none => .ok none
    | some ph => do
      let c ← d.tracker.step (d.env b) a
      .ok (c.map fun c => {d with tracker := c, phase := ph})

/-- What the steps do. -/
inductive Moves : DeviceAction → Device σ → Prop
  | pushWriter (h : d.phase = .idle) : Moves .pushWriter {d.addFile (.log b.newLog) with
      phase := .created d.created
      tracker := {d.tracker with reader := d.tracker.reader.pushWriter d.created}}
  | pushNewLog {log : ℕ} (h : d.phase = .created log) : Moves .pushNewLog {d with
      activeWriter := log
      pendingWriters := d.pendingWriters++[d.activeWriter]
      closing := d.activeWriter::d.closing
      phase := .swapped d.activeWriter}
  | closeWriter {i : ℕ} {fault : Option ℕ} {s : σ} (hf : d.files i = .log s) (hi : i ∈ d.closing) :
      Moves (.closeWriter i fault) {d with
        files := Function.update d.files i (.log (b.closeWriter s fault))
        closing := d.closing.erase i}
  | build {chosen : List ℕ} {r reader : BlockHoleReader (List UInt8)} {i : ℕ}
      (h : d.phase = .compacting i) (hr : d.indexReader b chosen = .ok reader) :
      Moves (.build chosen r)
        {d.addFile (.table r) with phase := .built i d.pendingWriters d.created}
  | removePending {i : ℕ} {logs : List ℕ} (h : d.phase = .replacing i logs)
      (hi : d.tracker.holders i = some .idle) : Moves .removePending {d with
        pendingWriters := logs.foldl List.erase d.pendingWriters
        phase := .removing i}
  | track {a : Tracker.Action ℕ} {ph : Phase} {c : Tracker.Config ℕ}
      (h : Phase.Next d.tracker.started d.phase a ph)
      (hs : d.tracker.step (d.env b) a = .ok (some c)) :
      Moves (.track a) {d with tracker := c, phase := ph}

theorem step_moves {b : Backend σ} {d d' : Device σ} {a : DeviceAction}
    (h : d.step b a = .ok (some d')) : d.Moves b a d' := by
  cases a with
  | pushWriter =>
    simp only [step] at h
    split at h
    · next hp =>
      cases h
      exact .pushWriter hp
    · cases h
  | pushNewLog =>
    simp only [step] at h
    split at h
    · next hp =>
      cases h
      exact .pushNewLog hp
    · cases h
  | closeWriter i fault =>
    simp only [step] at h
    split at h
    · next hf =>
      split_ifs at h with hi
      · cases h
        exact .closeWriter hf hi
      · cases h
    · cases h
  | build chosen r =>
    simp only [step] at h
    split at h
    · next hp =>
      obtain ⟨reader,hr,h⟩ := exists_bind h
      cases h
      exact .build hp hr
    · cases h
  | removePending =>
    simp only [step] at h
    split at h
    · next hp =>
      split at h
      · next hi =>
        cases h
        exact .removePending hp hi
      · cases h
    · cases h
  | track a =>
    simp only [step] at h
    split at h
    · cases h
    · next hn =>
      obtain ⟨o,hs,h⟩ := exists_bind h
      cases o with
      | none => cases h
      | some c =>
        cases h
        exact .track (Phase.next_cases hn) hs

/-- The chosen tables are some of the index, and the table that is opened reads back what was
written to it. -/
def Allowed : DeviceAction → Prop
  | .build chosen r => chosen.Nodup ∧
    (∀ t ∈ chosen, t ∈ d.tracker.reader.primaryIndex.rs ∧ ∃ r, d.files t = .table r) ∧
    ∀ reader, d.indexReader b chosen = .ok reader →
      ∃ data, reader.Clean data ∧ (r.upTo b.numBlocks).Clean data
  | _ => True

end Methods

/-- A write of whole blocks that lie on the device. -/
structure BlockWrite where
  buf : List UInt8
  index : ℕ

def BlockWrite.InRange (b : Backend σ) (w : BlockWrite) : Prop :=
  w.buf.length%b.blockSize = 0 ∧ w.index+w.buf.length/b.blockSize ≤ b.numBlocks

/-- The payload of the write for the block `x`. -/
def BlockWrite.payload (blockSize : ℕ) (w : BlockWrite) (x : ℕ) : Option (List UInt8) :=
  if w.index ≤ x ∧ x < w.index+w.buf.length/blockSize then
    some ((w.buf.drop ((x-w.index)*blockSize)).take blockSize)
  else none

/-- The device is reached from a new one, with the successful writes of the run, the last one
first. -/
inductive Reached (b : Backend σ) : List BlockWrite → Device σ → Prop
  | new : Reached b [] (.new b)
  | write {ws : List BlockWrite} {d d' : Device σ} (w : BlockWrite) {n : ℕ} {err : Option Error} :
      Reached b ws d → w.InRange b → d.writeBlocks b w.buf w.index = .ok (d',n,err) →
      Reached b (if err = none then w::ws else ws) d'
  | step {ws : List BlockWrite} {d d' : Device σ} (a : DeviceAction) :
      Reached b ws d → d.Allowed b a → d.step b a = .ok (some d') → Reached b ws d'

/-- The payload of the last of the writes that covers the block `x`. -/
def lastWritten (b : Backend σ) (ws : List BlockWrite) (x : ℕ) : Option (List UInt8) :=
  ws.findSome? fun w => w.payload b.blockSize x

end Device
end Logblock
