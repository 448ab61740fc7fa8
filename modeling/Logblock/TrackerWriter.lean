import Logblock.WaitBarrier
import Logblock.Volume

/-! The logs of a device, `tracker.Writer`, with any number of goroutines in its methods. A write
takes the active log under the lock and appends to it outside of it, so a log may still get writes
when another one has taken its place; the barriers tell when that is over. A step is a critical
section, a call of a log, or one operation of a barrier. -/
namespace Logblock
namespace TrackerWriter

open Loop Transition Volume

variable {β : Type}

def errNoWriter : Error := .new "no writer"

/-- A call of a log. A write has its number among the calls of `WriteBlocks` of the tracker, and
stands with the number of blocks that it returned. -/
inductive LogCall (β : Type)
  | writeBlocks (n : ℕ) (w : Write β × ℕ)
  | flush
  | closeWriter
  | close

/-- What a log returns, after the calls that it had before. What the other methods return is only
logged. -/
structure TrackedWriter (β : Type) where
  writeBlocks : List (LogCall β) → Write β → ℕ × Option Error
  written : List (LogCall β) → ℤ

inductive WritePhase
  | started
  | written
  | counted
  | returned
  deriving DecidableEq, Repr

/-- What a call of `WriteBlocks` takes with the lock: the log that is active, and a context of the
barrier. -/
structure Capture (β : Type) where
  write : Write β
  writer : Option ℕ
  context : ℕ

structure WriteCall (β : Type) extends Capture β where
  phase : WritePhase
  blocksWritten : ℕ
  err : Option Error

inductive PushPhase
  | waiting
  -- the call has returned, and its goroutine closes the log
  | closing
  | finishing
  | returned
  deriving DecidableEq, Repr

/-- A call of `PushNewLog` with an old log: the call of the barrier of the active log, and the
context of the barrier of the pending ones. -/
structure PushCall where
  oldWriter : ℕ
  barrier : ℕ
  context : ℕ
  phase : PushPhase
  deriving DecidableEq, Repr

/-- A call of `Flush` with the logs that are left to flush. -/
structure FlushCall where
  flushWriters : List ℕ
  pendingContext : ℕ
  activeContext : Option ℕ
  returned : Bool

/-- A call of `RemovePending` with the logs that it found. -/
structure RemoveCall where
  removed : List ℕ
  barrier : ℕ

inductive ClosePhase
  -- waiting for the active writes, with the lock of the pending logs
  | draining
  | flushing (barrier : ℕ)
  | closing (todo emptyLogs : List ℕ)
  | returned (emptyLogs : List ℕ)
  deriving DecidableEq, Repr

structure CloseCall where
  oldWriter : Option ℕ
  barrier : ℕ
  phase : ClosePhase
  deriving DecidableEq, Repr

def CloseCall.holdsLock (k : CloseCall) : Bool :=
  match k.phase with
  | .draining | .closing _ _ => true
  | _ => false

/-- The tracker, its calls in the order in which they had the lock, and the logs by the order in
which they were pushed, each with the calls that it had. -/
structure Config (β : Type) where
  activeWriter : Option ℕ
  activeWriterWb : WaitBarrier.Config
  writeCount : ℤ
  pendingWriters : List ℕ
  pendingWritersWb : WaitBarrier.Config
  pushed : ℕ
  history : ℕ → List (LogCall β)
  writes : List (WriteCall β)
  pushes : List PushCall
  flushes : List FlushCall
  removes : List RemoveCall
  closes : List CloseCall

inductive Action (β : Type)
  | pushPending
  | startWrite (w : Write β)
  | writeBlocks (n : ℕ)
  | countWrite (n : ℕ)
  | finishWrite (n : ℕ)
  | pushNewLog
  | resetCount (n : ℕ)
  | closeWriter (n : ℕ)
  | finishPush (n : ℕ)
  | startFlush
  | flushLog (n l : ℕ)
  | leaveFlush (n : ℕ)
  | finishFlush (n : ℕ)
  | removePending (p : List ℕ)
  | startClose
  | drained (n : ℕ)
  | lockPending (n : ℕ)
  | closeLog (n : ℕ)
  | finishClose (n : ℕ)
  | activeBarrier (a : WaitBarrier.Action)
  | pendingBarrier (a : WaitBarrier.Action)

namespace Config

def new : Config β := ⟨none,.new,0,[],.new,0,fun _ => [],[],[],[],[],[]⟩

variable (c : Config β)

/-- The lock of the active log is held up to the unlocker of a barrier. -/
def activeWriterLocked : Bool := c.activeWriterWb.calls.any fun k => k.phase = .unlocking

def pendingWritersLocked : Bool :=
  (c.pendingWritersWb.calls.any fun k => k.phase = .unlocking) || c.closes.any CloseCall.holdsLock

def locked : Bool := c.pendingWritersLocked || c.activeWriterLocked

def call (l : ℕ) (k : LogCall β) : Config β :=
  {c with history := Function.update c.history l (c.history l++[k])}

def setWrite (n : ℕ) (phase : WritePhase) : Config β :=
  {c with writes := c.writes.modify n fun k => {k with phase := phase}}

/-- The call `n` has its result. -/
def setResult (n : ℕ) (phase : WritePhase) (r : ℕ × Option Error) : Config β :=
  {c with writes := c.writes.modify n fun k =>
    {k with phase := phase, blocksWritten := r.1, err := r.2}}

def setPush (n : ℕ) (phase : PushPhase) : Config β :=
  {c with pushes := c.pushes.modify n fun k => {k with phase := phase}}

def setClose (n : ℕ) (phase : ClosePhase) : Config β :=
  {c with closes := c.closes.modify n fun k => {k with phase := phase}}

def startWrite (w : Write β) : Config β :=
  {c with
    activeWriterWb := c.activeWriterWb.start
    writes := c.writes++
      [⟨⟨w,c.activeWriter,c.activeWriterWb.contexts.length⟩,.started,0,none⟩]}

/-- The critical sections of `PushNewLog`, up to the wait for the writes to the old log. -/
def pushNewLog : Config β :=
  match c.activeWriter with
  | none => {c with activeWriter := some c.pushed, pushed := c.pushed+1}
  | some old => {c with
      activeWriter := some c.pushed
      activeWriterWb := c.activeWriterWb.barrierWithUnlock true
      pendingWriters := c.pendingWriters++[old]
      pendingWritersWb := c.pendingWritersWb.start
      pushed := c.pushed+1
      pushes := c.pushes++[⟨old,c.activeWriterWb.calls.length,
        c.pendingWritersWb.contexts.length,.waiting⟩]}

def startFlush : Config β :=
  {c with
    activeWriterWb := if c.activeWriter.isSome then c.activeWriterWb.start else c.activeWriterWb
    pendingWritersWb := c.pendingWritersWb.start
    flushes := c.flushes++[⟨c.pendingWriters++c.activeWriter.toList,
      c.pendingWritersWb.contexts.length,
      c.activeWriter.map fun _ => c.activeWriterWb.contexts.length,false⟩]}

def removePending (p : List ℕ) : Config β :=
  {c with
    pendingWriters := p.foldl List.erase c.pendingWriters
    pendingWritersWb := c.pendingWritersWb.barrierWithUnlock true
    removes := c.removes++
      [⟨p.filter (· ∈ c.pendingWriters),c.pendingWritersWb.calls.length⟩]}

/-- `Close`, up to its wait for the active writes. -/
def startClose : Config β :=
  {c with
    activeWriter := none
    activeWriterWb := c.activeWriterWb.barrierWithUnlock true
    writeCount := if c.activeWriter.isSome then 0 else c.writeCount
    pendingWriters := c.pendingWriters++c.activeWriter.toList
    closes := c.closes++[⟨c.activeWriter,c.activeWriterWb.calls.length,.draining⟩]}

/-- A step, if it is enabled. -/
def step (logs : ℕ → TrackedWriter β) (blockSize : ℕ) (c : Config β) :
    Action β → Exec (Option (Config β))
  | .pushPending =>
    if c.pendingWritersLocked then .ok none
    else .ok (some {c with pendingWriters := c.pendingWriters++[c.pushed], pushed := c.pushed+1})
  | .startWrite w => if c.activeWriterLocked then .ok none else .ok (some (c.startWrite w))
  | .writeBlocks n =>
    match c.writes[n]? with
    | some ⟨⟨_,none,_⟩,.started,_,_⟩ => .ok (some (c.setResult n .counted (0,some errNoWriter)))
    | some ⟨⟨w,some l,_⟩,.started,_,_⟩ =>
      let r := (logs l).writeBlocks (c.history l) w
      .ok (some ((c.call l (.writeBlocks n (w,r.1))).setResult n .written r))
    | _ => .ok none
  | .countWrite n =>
    match c.writes[n]? with
    | some ⟨_,.written,m,_⟩ => .ok (some {c.setWrite n .counted with
        writeCount := if 0 < m then c.writeCount+m*blockSize else c.writeCount})
    | _ => .ok none
  | .finishWrite n =>
    match c.writes[n]? with
    | some ⟨⟨_,_,i⟩,.counted,_,_⟩ => do
      match ← c.activeWriterWb.step (.done i) with
      | some wb => .ok (some {c.setWrite n .returned with activeWriterWb := wb})
      | none => .ok none
    | _ => .ok none
  | .pushNewLog => if c.locked then .ok none else .ok (some c.pushNewLog)
  | .resetCount n =>
    match c.pushes[n]? with
    | some ⟨_,b,_,.waiting⟩ =>
      match c.activeWriterWb.calls[b]? with
      | some ⟨_,_,.returned⟩ => .ok (some {c.setPush n .closing with writeCount := 0})
      | _ => .ok none
    | _ => .ok none
  | .closeWriter n =>
    match c.pushes[n]? with
    | some ⟨old,_,_,.closing⟩ => .ok (some ((c.call old .closeWriter).setPush n .finishing))
    | _ => .ok none
  | .finishPush n =>
    match c.pushes[n]? with
    | some ⟨_,_,i,.finishing⟩ => do
      match ← c.pendingWritersWb.step (.done i) with
      | some wb => .ok (some {c.setPush n .returned with pendingWritersWb := wb})
      | none => .ok none
    | _ => .ok none
  | .startFlush => if c.locked then .ok none else .ok (some c.startFlush)
  | .flushLog n l =>
    match c.flushes[n]? with
    | some f =>
      if l ∈ f.flushWriters then .ok (some {c.call l .flush with
        flushes := c.flushes.modify n fun f => {f with flushWriters := f.flushWriters.erase l}})
      else .ok none
    | none => .ok none
  | .leaveFlush n =>
    match c.flushes[n]? with
    | some ⟨[],_,some i,_⟩ => do
      match ← c.activeWriterWb.step (.done i) with
      | some wb => .ok (some {c with
          activeWriterWb := wb
          flushes := c.flushes.modify n fun f => {f with activeContext := none}})
      | none => .ok none
    | _ => .ok none
  | .finishFlush n =>
    match c.flushes[n]? with
    | some ⟨[],i,none,false⟩ => do
      match ← c.pendingWritersWb.step (.done i) with
      | some wb => .ok (some {c with
          pendingWritersWb := wb
          flushes := c.flushes.modify n fun f => {f with returned := true}})
      | none => .ok none
    | _ => .ok none
  | .removePending p =>
    if c.pendingWritersLocked then .ok none else .ok (some (c.removePending p))
  | .startClose => if c.locked then .ok none else .ok (some c.startClose)
  | .drained n =>
    match c.closes[n]? with
    | some ⟨_,b,.draining⟩ =>
      match c.activeWriterWb.calls[b]? with
      | some ⟨_,_,.returned⟩ =>
        .ok (some {c.setClose n (.flushing c.pendingWritersWb.calls.length) with
          pendingWritersWb := c.pendingWritersWb.barrierWithUnlock true})
      | _ => .ok none
    | _ => .ok none
  | .lockPending n =>
    match c.closes[n]? with
    | some ⟨_,_,.flushing b⟩ =>
      match c.pendingWritersWb.calls[b]? with
      | some ⟨_,_,.returned⟩ =>
        if c.pendingWritersLocked then .ok none
        else .ok (some (c.setClose n (.closing c.pendingWriters [])))
      | _ => .ok none
    | _ => .ok none
  | .closeLog n =>
    match c.closes[n]? with
    | some ⟨_,_,.closing (l::todo) emptyLogs⟩ =>
      .ok (some ((c.call l .close).setClose n (.closing todo
        (if (logs l).written (c.history l++[.close]) = 0 then emptyLogs++[l] else emptyLogs))))
    | _ => .ok none
  | .finishClose n =>
    match c.closes[n]? with
    | some ⟨_,_,.closing [] emptyLogs⟩ => .ok (some (c.setClose n (.returned emptyLogs)))
    | _ => .ok none
  | .activeBarrier a =>
    if a.internal then do
      match ← c.activeWriterWb.step a with
      | some wb => .ok (some {c with activeWriterWb := wb})
      | none => .ok none
    else .ok none
  | .pendingBarrier a =>
    if a.internal then do
      match ← c.pendingWritersWb.step a with
      | some wb => .ok (some {c with pendingWritersWb := wb})
      | none => .ok none
    else .ok none

/-- What each step does. -/
inductive Moves (logs : ℕ → TrackedWriter β) (blockSize : ℕ) (c : Config β) :
    Action β → Config β → Prop
  | pushPending : Moves logs blockSize c .pushPending
      {c with pendingWriters := c.pendingWriters++[c.pushed], pushed := c.pushed+1}
  | startWrite (w : Write β) : Moves logs blockSize c (.startWrite w) (c.startWrite w)
  | noWriter {n : ℕ} {k : WriteCall β} (hn : c.writes[n]? = some k) (hphase : k.phase = .started)
      (hwriter : k.writer = none) : Moves logs blockSize c (.writeBlocks n)
        (c.setResult n .counted (0,some errNoWriter))
  | writeBlocks {n l : ℕ} {k : WriteCall β} (hn : c.writes[n]? = some k)
      (hphase : k.phase = .started) (hwriter : k.writer = some l) :
      Moves logs blockSize c (.writeBlocks n)
        ((c.call l (.writeBlocks n (k.write,((logs l).writeBlocks (c.history l) k.write).1))).setResult n
          .written ((logs l).writeBlocks (c.history l) k.write))
  | countWrite {n : ℕ} {k : WriteCall β} (hn : c.writes[n]? = some k)
      (hphase : k.phase = .written) : Moves logs blockSize c (.countWrite n)
        {c.setWrite n .counted with
          writeCount := if 0 < k.blocksWritten then c.writeCount+k.blocksWritten*blockSize
            else c.writeCount}
  | finishWrite {n : ℕ} {k : WriteCall β} {wb : WaitBarrier.Config} (hn : c.writes[n]? = some k)
      (hphase : k.phase = .counted) (hdone : c.activeWriterWb.step (.done k.context) = .ok (some wb)) :
      Moves logs blockSize c (.finishWrite n) {c.setWrite n .returned with activeWriterWb := wb}
  | pushNewLog : Moves logs blockSize c .pushNewLog c.pushNewLog
  | resetCount {n : ℕ} {k : PushCall} (hn : c.pushes[n]? = some k) (hphase : k.phase = .waiting)
      (hret : c.activeWriterWb.Returned k.barrier) :
      Moves logs blockSize c (.resetCount n) {c.setPush n .closing with writeCount := 0}
  | closeWriter {n : ℕ} {k : PushCall} (hn : c.pushes[n]? = some k) (hphase : k.phase = .closing) :
      Moves logs blockSize c (.closeWriter n) ((c.call k.oldWriter .closeWriter).setPush n .finishing)
  | finishPush {n : ℕ} {k : PushCall} {wb : WaitBarrier.Config} (hn : c.pushes[n]? = some k)
      (hphase : k.phase = .finishing)
      (hdone : c.pendingWritersWb.step (.done k.context) = .ok (some wb)) :
      Moves logs blockSize c (.finishPush n) {c.setPush n .returned with pendingWritersWb := wb}
  | startFlush : Moves logs blockSize c .startFlush c.startFlush
  | flushLog {n l : ℕ} {f : FlushCall} (hn : c.flushes[n]? = some f) (hl : l ∈ f.flushWriters) :
      Moves logs blockSize c (.flushLog n l) {c.call l .flush with
        flushes := c.flushes.modify n fun f => {f with flushWriters := f.flushWriters.erase l}}
  | leaveFlush {n i : ℕ} {f : FlushCall} {wb : WaitBarrier.Config} (hn : c.flushes[n]? = some f)
      (hwriters : f.flushWriters = []) (hi : f.activeContext = some i)
      (hdone : c.activeWriterWb.step (.done i) = .ok (some wb)) :
      Moves logs blockSize c (.leaveFlush n) {c with
        activeWriterWb := wb
        flushes := c.flushes.modify n fun f => {f with activeContext := none}}
  | finishFlush {n : ℕ} {f : FlushCall} {wb : WaitBarrier.Config} (hn : c.flushes[n]? = some f)
      (hwriters : f.flushWriters = []) (hi : f.activeContext = none) (hret : f.returned = false)
      (hdone : c.pendingWritersWb.step (.done f.pendingContext) = .ok (some wb)) :
      Moves logs blockSize c (.finishFlush n) {c with
        pendingWritersWb := wb
        flushes := c.flushes.modify n fun f => {f with returned := true}}
  | removePending (p : List ℕ) : Moves logs blockSize c (.removePending p) (c.removePending p)
  | startClose : Moves logs blockSize c .startClose c.startClose
  | drained {n : ℕ} {k : CloseCall} (hn : c.closes[n]? = some k) (hphase : k.phase = .draining)
      (hret : c.activeWriterWb.Returned k.barrier) : Moves logs blockSize c (.drained n)
        {c.setClose n (.flushing c.pendingWritersWb.calls.length) with
          pendingWritersWb := c.pendingWritersWb.barrierWithUnlock true}
  | lockPending {n b : ℕ} {k : CloseCall} (hn : c.closes[n]? = some k)
      (hphase : k.phase = .flushing b) (hret : c.pendingWritersWb.Returned b) :
      Moves logs blockSize c (.lockPending n) (c.setClose n (.closing c.pendingWriters []))
  | closeLog {n l : ℕ} {todo emptyLogs : List ℕ} {k : CloseCall} (hn : c.closes[n]? = some k)
      (hphase : k.phase = .closing (l::todo) emptyLogs) : Moves logs blockSize c (.closeLog n)
        ((c.call l .close).setClose n (.closing todo
          (if (logs l).written (c.history l++[.close]) = 0 then emptyLogs++[l] else emptyLogs)))
  | finishClose {n : ℕ} {emptyLogs : List ℕ} {k : CloseCall} (hn : c.closes[n]? = some k)
      (hphase : k.phase = .closing [] emptyLogs) :
      Moves logs blockSize c (.finishClose n) (c.setClose n (.returned emptyLogs))
  | activeBarrier {a : WaitBarrier.Action} {wb : WaitBarrier.Config} (ha : a.internal = true)
      (hs : c.activeWriterWb.step a = .ok (some wb)) :
      Moves logs blockSize c (.activeBarrier a) {c with activeWriterWb := wb}
  | pendingBarrier {a : WaitBarrier.Action} {wb : WaitBarrier.Config} (ha : a.internal = true)
      (hs : c.pendingWritersWb.step a = .ok (some wb)) :
      Moves logs blockSize c (.pendingBarrier a) {c with pendingWritersWb := wb}

variable {logs : ℕ → TrackedWriter β} {blockSize : ℕ} {c c' : Config β}

/-- A step that passes on what a barrier does. -/
theorem exists_barrier {wb : Exec (Option WaitBarrier.Config)} {f : WaitBarrier.Config → Config β}
    (h : (do match ← wb with
      | some wb => .ok (some (f wb))
      | none => .ok none : Exec (Option (Config β))) = .ok (some c')) :
    ∃ b, wb = .ok (some b) ∧ c' = f b := by
  obtain ⟨o,ho,h⟩ := exists_bind h
  cases o with
  | none => cases h
  | some b =>
    cases h
    exact ⟨b,ho,rfl⟩

theorem step_moves {a : Action β} (hs : c.step logs blockSize a = .ok (some c')) :
    Moves logs blockSize c a c' := by
  cases a with
  | pushPending =>
    simp only [step] at hs
    split_ifs at hs
    · cases hs
    · cases hs
      exact .pushPending
  | startWrite w =>
    simp only [step] at hs
    split_ifs at hs
    · cases hs
    · cases hs
      exact .startWrite w
  | writeBlocks n =>
    simp only [step] at hs
    split at hs
    · rename_i hn
      cases hs
      exact .noWriter hn rfl rfl
    · rename_i hn
      cases hs
      exact .writeBlocks hn rfl rfl
    · cases hs
  | countWrite n =>
    simp only [step] at hs
    split at hs
    · rename_i hn
      cases hs
      exact .countWrite hn rfl
    · cases hs
  | finishWrite n =>
    simp only [step] at hs
    split at hs
    · rename_i hn
      obtain ⟨wb,hdone,rfl⟩ := exists_barrier hs
      exact .finishWrite hn rfl hdone
    · cases hs
  | pushNewLog =>
    simp only [step] at hs
    split_ifs at hs
    · cases hs
    · cases hs
      exact .pushNewLog
  | resetCount n =>
    simp only [step] at hs
    split at hs
    · rename_i hn
      split at hs
      · rename_i hb
        cases hs
        exact .resetCount hn rfl ⟨_,hb,rfl⟩
      · cases hs
    · cases hs
  | closeWriter n =>
    simp only [step] at hs
    split at hs
    · rename_i hn
      cases hs
      exact .closeWriter hn rfl
    · cases hs
  | finishPush n =>
    simp only [step] at hs
    split at hs
    · rename_i hn
      obtain ⟨wb,hdone,rfl⟩ := exists_barrier hs
      exact .finishPush hn rfl hdone
    · cases hs
  | startFlush =>
    simp only [step] at hs
    split_ifs at hs
    · cases hs
    · cases hs
      exact .startFlush
  | flushLog n l =>
    simp only [step] at hs
    split at hs
    · rename_i hn
      split_ifs at hs with hl
      · cases hs
        exact .flushLog hn hl
      · cases hs
    · cases hs
  | leaveFlush n =>
    simp only [step] at hs
    split at hs
    · rename_i hn
      obtain ⟨wb,hdone,rfl⟩ := exists_barrier hs
      exact .leaveFlush hn rfl rfl hdone
    · cases hs
  | finishFlush n =>
    simp only [step] at hs
    split at hs
    · rename_i hn
      obtain ⟨wb,hdone,rfl⟩ := exists_barrier hs
      exact .finishFlush hn rfl rfl rfl hdone
    · cases hs
  | removePending p =>
    simp only [step] at hs
    split_ifs at hs
    · cases hs
    · cases hs
      exact .removePending p
  | startClose =>
    simp only [step] at hs
    split_ifs at hs
    · cases hs
    · cases hs
      exact .startClose
  | drained n =>
    simp only [step] at hs
    split at hs
    · rename_i hn
      split at hs
      · rename_i hb
        cases hs
        exact .drained hn rfl ⟨_,hb,rfl⟩
      · cases hs
    · cases hs
  | lockPending n =>
    simp only [step] at hs
    split at hs
    · rename_i hn
      split at hs
      · rename_i hb
        split_ifs at hs
        · cases hs
        · cases hs
          exact .lockPending hn rfl ⟨_,hb,rfl⟩
      · cases hs
    · cases hs
  | closeLog n =>
    simp only [step] at hs
    split at hs
    · rename_i hn
      cases hs
      exact .closeLog hn rfl
    · cases hs
  | finishClose n =>
    simp only [step] at hs
    split at hs
    · rename_i hn
      cases hs
      exact .finishClose hn rfl
    · cases hs
  | activeBarrier a =>
    simp only [step] at hs
    split_ifs at hs with ha
    · obtain ⟨wb,hwb,rfl⟩ := exists_barrier hs
      exact .activeBarrier ha hwb
    · cases hs
  | pendingBarrier a =>
    simp only [step] at hs
    split_ifs at hs with ha
    · obtain ⟨wb,hwb,rfl⟩ := exists_barrier hs
      exact .pendingBarrier ha hwb
    · cases hs

end Config

end TrackerWriter
end Logblock
