import Logblock.WaitBarrier
import Logblock.DeviceContent

/-! Reads in flight. A read takes the stack of readers under the lock and uses it outside of it,
while compactions replace readers and close them; `RemoveUnusedReader` waits for the reads that may
still use the reader. -/
namespace Logblock

open Loop Transition Tracker

variable {σ : Type}

/-- A call of `ReadBlocks` that has had the lock: the writers and the pending readers of its stack,
its context, and the readers that it has found in the block map so far. -/
structure ReadCall where
  stack : List ℕ
  context : ℕ
  found : List ℕ
  returned : Bool
  deriving DecidableEq, Repr

/-- The call may use the reader. -/
def ReadCall.Uses (k : ReadCall) (r : ℕ) : Prop := k.returned = false ∧ (r ∈ k.stack ∨ r ∈ k.found)

/-- A device with the reads in flight. -/
structure ReadingDevice (σ : Type) where
  device : Device σ
  wb : WaitBarrier.Config
  reads : List ReadCall
  -- the calls of the barrier that `compactWriter` and the merge loop wait for
  waiting : Option ℕ
  draining : Option ℕ
  -- the reader of `RemoveUnusedReader`
  removal : Option ℕ
  -- the readers that were removed, and those that are closed
  unused : List ℕ
  closed : List ℕ

inductive ReadAction
  | startRead
  -- a read looks up the block `x` in the block map
  | find (n x : ℕ)
  | finishRead (n : ℕ)
  -- the call of `Barrier` in `RemoveUnusedReader`
  | removeUnusedReader (r : ℕ)
  | close (r : ℕ)
  | act (a : DeviceAction)
  | barrier (a : WaitBarrier.Action)

/-- The step is in a critical section of the lock of `tracker.Reader`. -/
def DeviceAction.takesLock : DeviceAction → Bool
  | .pushWriter => true
  | .track a =>
    match a with
    | .pushReader _ | .removeWriter _ | .copyPending | .removeMerged | .drained | .startCompaction
    | .done _ => true
    | _ => false
  | _ => false

/-- The step is one of the goroutine of `compactWriter`. -/
def DeviceAction.ofCompactWriter : DeviceAction → Bool
  | .closeWriter _ _ => false
  | .track a => !a.ofMerge
  | _ => true

/-- The counts that the loop of `removeUnusedTables` has not looked at yet. -/
def Device.liveBlocks (d : Device σ) : Option (BlockMap.Reader.LiveMap ℕ) :=
  match d.phase with
  | .removing i =>
    match d.tracker.holders i with
    | some (.removing live) => some live
    | _ => none
  | _ => none

namespace ReadingDevice

variable (b : Backend σ) (m : ReadingDevice σ)

def new : ReadingDevice σ := ⟨.new b,.new,[],none,none,none,[],[]⟩

def locked : Bool := m.wb.calls.any fun k => k.phase = .unlocking

/-- There is no call of the barrier to wait for any more. -/
def hasReturned (call : Option ℕ) : Bool :=
  match call with
  | none => true
  | some n =>
    match m.wb.calls[n]? with
    | some k => k.phase = .returned
    | none => false

def startRead : ReadingDevice σ :=
  {m with
    wb := m.wb.start
    reads := m.reads++[⟨m.device.tracker.reader.writers++m.device.tracker.reader.pendingReaders,
      m.wb.contexts.length,[],false⟩]}

/-- The loop of `removeUnusedTables` is over. -/
def allRemoved : Bool :=
  match m.device.liveBlocks with
  | some live => (live.entries.all fun e => e.2 ≠ 0) && m.removal.isNone
  | none => false

/-- A step of the device, with what it does to the barrier. -/
def act (d : Device σ) : DeviceAction → ReadingDevice σ
  | .track (.removeWriter _) =>
    {m with device := d, wb := m.wb.barrierWithUnlock true, waiting := some m.wb.calls.length}
  | .track .removeMerged =>
    {m with device := d, wb := m.wb.barrierWithUnlock true, draining := some m.wb.calls.length}
  | .track (.removeUnused _ r) =>
    {m with device := d, removal := none, unused := m.unused++[r]}
  | _ => {m with device := d}

/-- The goroutine of the step is not waiting, and `RemoveUnusedReader` removes its reader. -/
def ready (a : DeviceAction) : Bool :=
  !(a.takesLock && m.locked) && (!a.ofCompactWriter || m.hasReturned m.waiting) &&
    match a with
    | .track (.removeUnused _ r) => m.removal = some r
    | .track .drained => m.hasReturned m.draining
    -- `Done` is deferred until the unused files are closed
    | .track (.done _) => m.allRemoved && m.unused.isEmpty
    | a => !a.ofCompactWriter || m.removal.isNone

def step : ReadAction → Exec (Option (ReadingDevice σ))
  | .startRead => if m.locked then .ok none else .ok (some m.startRead)
  | .find n x =>
    match m.reads[n]? with
    | some ⟨_,_,_,false⟩ => .ok (some {m with reads := m.reads.modify n fun k =>
        {k with found := k.found++(m.device.tracker.reader.primaryIndex.find x).toList}})
    | _ => .ok none
  | .finishRead n =>
    match m.reads[n]? with
    | some ⟨_,i,_,false⟩ => do
      match ← m.wb.step (.done i) with
      | some wb => .ok (some {m with
          wb := wb, reads := m.reads.modify n fun k => {k with returned := true}})
      | none => .ok none
    | _ => .ok none
  | .removeUnusedReader r =>
    match m.device.liveBlocks with
    | some live =>
      if live.lookup (some r) = some 0 ∧ m.removal = none ∧ m.hasReturned m.waiting then
        .ok (some {m with
          wb := m.wb.barrierWithUnlock false
          waiting := some m.wb.calls.length
          removal := some r})
      else .ok none
    | none => .ok none
  | .close r =>
    if m.allRemoved ∧ r ∈ m.unused then
      .ok (some {m with unused := m.unused.erase r, closed := r::m.closed})
    else .ok none
  | .act a =>
    if m.ready a then do
      match ← m.device.step b a with
      | some d => .ok (some (m.act d a))
      | none => .ok none
    else .ok none
  | .barrier a =>
    if a.internal then do
      match ← m.wb.step a with
      | some wb => .ok (some {m with wb := wb})
      | none => .ok none
    else .ok none

/-- What the steps do. -/
inductive Moves : ReadAction → ReadingDevice σ → Prop
  | startRead : Moves .startRead m.startRead
  | find {n x : ℕ} {k : ReadCall} (hn : m.reads[n]? = some k) (hk : k.returned = false) :
      Moves (.find n x) {m with reads := m.reads.modify n fun k =>
        {k with found := k.found++(m.device.tracker.reader.primaryIndex.find x).toList}}
  | finishRead {n : ℕ} {k : ReadCall} {wb : WaitBarrier.Config} (hn : m.reads[n]? = some k)
      (hk : k.returned = false) (hdone : m.wb.step (.done k.context) = .ok (some wb)) :
      Moves (.finishRead n) {m with
        wb := wb, reads := m.reads.modify n fun k => {k with returned := true}}
  | removeUnusedReader {r : ℕ} {live : BlockMap.Reader.LiveMap ℕ}
      (hlive : m.device.liveBlocks = some live)
      (hr : live.lookup (some r) = some 0) : Moves (.removeUnusedReader r) {m with
        wb := m.wb.barrierWithUnlock false
        waiting := some m.wb.calls.length
        removal := some r}
  | close {r : ℕ} (hr : r ∈ m.unused) :
      Moves (.close r) {m with unused := m.unused.erase r, closed := r::m.closed}
  | act {a : DeviceAction} {d : Device σ} (ha : m.ready a = true)
      (hs : m.device.step b a = .ok (some d)) : Moves (.act a) (m.act d a)
  | barrier {a : WaitBarrier.Action} {wb : WaitBarrier.Config} (ha : a.internal = true)
      (hs : m.wb.step a = .ok (some wb)) : Moves (.barrier a) {m with wb := wb}

/-- The steps that the device allows. -/
def Allowed : ReadAction → Prop
  | .act a => m.device.Allowed b a
  | _ => True

/-- The device with its reads is reached from a new one, with the successful writes of the run, the
last one first. -/
inductive Reached (b : Backend σ) : List Device.BlockWrite → ReadingDevice σ → Prop
  | new : Reached b [] (.new b)
  | write {ws : List Device.BlockWrite} {m : ReadingDevice σ} {d' : Device σ}
      (w : Device.BlockWrite) {n : ℕ} {err : Option Error} : Reached b ws m → w.InRange b →
      m.device.writeBlocks b w.buf w.index = .ok (d',n,err) →
      Reached b (if err = none then w::ws else ws) {m with device := d'}
  | step {ws : List Device.BlockWrite} {m m' : ReadingDevice σ} (a : ReadAction) :
      Reached b ws m → m.Allowed b a → m.step b a = .ok (some m') → Reached b ws m'

theorem step_moves {b : Backend σ} {m m' : ReadingDevice σ} {a : ReadAction}
    (h : m.step b a = .ok (some m')) : m.Moves b a m' := by
  cases a with
  | startRead =>
    simp only [step] at h
    split_ifs at h
    · cases h
    · cases h
      exact .startRead
  | find n x =>
    simp only [step] at h
    split at h
    · next hn =>
      cases h
      exact .find hn rfl
    · cases h
  | finishRead n =>
    simp only [step] at h
    split at h
    · next hn =>
      obtain ⟨o,hdone,h⟩ := exists_bind h
      cases o with
      | none => cases h
      | some wb =>
        cases h
        exact .finishRead hn rfl hdone
    · cases h
  | removeUnusedReader r =>
    simp only [step] at h
    split at h
    · next hlive =>
      split_ifs at h with hif
      · cases h
        exact .removeUnusedReader hlive hif.1
      · cases h
    · cases h
  | close r =>
    simp only [step] at h
    split_ifs at h with hif
    · cases h
      exact .close hif.2
    · cases h
  | act a =>
    simp only [step] at h
    split_ifs at h with ha
    · obtain ⟨o,hs,h⟩ := exists_bind h
      cases o with
      | none => cases h
      | some d =>
        cases h
        exact .act ha hs
    · cases h
  | barrier a =>
    simp only [step] at h
    split_ifs at h with ha
    · obtain ⟨o,hs,h⟩ := exists_bind h
      cases o with
      | none => cases h
      | some wb =>
        cases h
        exact .barrier ha hs
    · cases h

end ReadingDevice

namespace Tracker.Push

variable {ρ β : Type} [DecidableEq ρ] {index index' : BlockMap.Reader ρ}

theorem start_rs {r : ρ} {p : Push ρ} (h : Push.start index r = .ok (index',p)) :
    index'.rs = index.rs++[r] := by
  obtain ⟨⟨index₁,iv⟩,hreg,h⟩ := exists_bind h
  cases h
  simp only [BlockMap.Reader.register,BlockMap.Reader.fetchOrAddValueIndex] at hreg
  split_ifs at hreg
  split at hreg
  · cases hreg
    rfl
  · split at hreg
    · cases hreg
    · cases hreg
      rfl

omit [DecidableEq ρ] in
theorem pass_rs {env : ρ → BlockHoleReader β} {p : Push ρ} {p' : Option (Push ρ)}
    (h : p.pass env index = .ok (index',p')) : index'.rs = index.rs := by
  simp only [Push.pass,BlockMap.Reader.pushPass] at h
  split at h
  · cases h
  · next heq =>
    cases h
    split at heq
    · split at heq
      · split_ifs at heq <;> cases heq <;> rfl
      · cases heq
    · cases heq
    · cases heq
  · next heq =>
    cases h
    split at heq
    · split at heq
      · split_ifs at heq <;> cases heq
      · cases heq
    · cases heq
      rfl
    · cases heq

end Tracker.Push

namespace Phase

/-- The table that is to be pushed. -/
def table : Phase → List ℕ
  | built _ _ table => [table]
  | _ => []

/-- The goroutine has a `CompactionState`. -/
def inCompaction : Phase → Bool
  | compacting _ | built _ _ _ | replacing _ _ | removing _ => true
  | _ => false

variable {started r : ℕ} {ph ph' : Phase} {t : Tracker.Action ℕ}

theorem Next.table_subset (h : Next started ph t ph') : ph'.table ⊆ ph.table := by
  cases h with
  | merge _ _ => exact List.Subset.refl _
  | _ => exact List.nil_subset _

/-- The goroutine pushes the log that it has rotated and the table that it has built. -/
theorem Next.pushed_mem (active : ℕ) (h : Next started ph t ph')
    (ht : t = .pushWriter r ∨ t = .pushReader r ∨ ∃ i, t = .pushCompacted i r) :
    r ∈ ph.writers active ∨ r ∈ ph.table := by
  cases h with
  | merge _ hmerge => rcases ht with rfl | rfl | ⟨_,rfl⟩ <;> cases hmerge
  | pushReader old =>
    rcases ht with ht | ht | ⟨_,ht⟩ <;> cases ht
    exact .inl (by simp [writers])
  | pushCompacted i logs table =>
    rcases ht with ht | ht | ⟨_,ht⟩ <;> cases ht
    exact .inr List.mem_cons_self
  | _ => rcases ht with ht | ht | ⟨_,ht⟩ <;> cases ht

end Phase

namespace Device

variable {b : Backend σ} {d d' : Device σ} {a : DeviceAction}

/-- The files that reads, merges and compactions to come may use. -/
def inUse (d : Device σ) : List ℕ :=
  d.tracker.reader.writers++d.tracker.reader.pendingReaders++d.tracker.reader.primaryIndex.rs++
    d.pendingWriters++d.phase.table

/-- No reader is pending while a compaction runs, and no log when it has replaced them. -/
structure Quiet (d : Device σ) : Prop where
  readers : d.phase.inCompaction = true → d.tracker.reader.pendingReaders = []
  logs : ∀ i, d.phase = .removing i → d.pendingWriters = []

/-- The loop of `removeUnusedTables` is about to remove the reader. -/
def Unused (d : Device σ) (r : ℕ) : Prop :=
  ∃ live, d.liveBlocks = some live ∧ live.lookup (some r) = some 0

theorem mem_inUse_of_stack {r : ℕ}
    (h : r ∈ d.tracker.reader.writers++d.tracker.reader.pendingReaders) : r ∈ d.inUse :=
  List.mem_append_left _ (List.mem_append_left _ (List.mem_append_left _ h))

theorem mem_inUse_of_listed {r : ℕ} (h : r ∈ d.tracker.reader.primaryIndex.rs) : r ∈ d.inUse :=
  List.mem_append_left _ (List.mem_append_left _ (List.mem_append_right _ h))

theorem liveBlocks_eq_some {live : BlockMap.Reader.LiveMap ℕ} (h : d.liveBlocks = some live) :
    ∃ i, d.phase = .removing i ∧ d.tracker.holders i = some (.removing live) := by
  simp only [liveBlocks] at h
  split at h
  · next i hp =>
    split at h
    · next hi =>
      cases h
      exact ⟨i,hp,hi⟩
    · cases h
  · cases h

theorem writeBlocks_ok {w : BlockWrite} {n : ℕ} {err : Option Error}
    (h : d.writeBlocks b w.buf w.index = .ok (d',n,err)) : ∃ files, d' = {d with files := files} := by
  simp only [writeBlocks] at h
  split at h
  · obtain ⟨⟨s',n',err'⟩,_,h⟩ := exists_bind h
    cases h
    exact ⟨_,rfl⟩
  · cases h

theorem created_le (h : d.Moves b a d') : d.created ≤ d'.created := by
  cases h with
  | pushWriter _ | build _ _ => exact Nat.le_succ _
  | pushNewLog _ | closeWriter _ _ | removePending _ _ | track _ _ => exact le_rfl

/-- A call of the tracker brings into its lists what it is given, and what it has. -/
theorem tracker_lists {c c' : Tracker.Config ℕ} {env : ℕ → BlockHoleReader (List UInt8)}
    {t : Tracker.Action ℕ} (hs : c.Moves env t c')
    (hcopied : ∀ rs todo p, c.merge = .merging rs todo p → ∀ r ∈ todo, r ∈ c.reader.pendingReaders)
    {r : ℕ} (hr : r ∈ c'.reader.writers++c'.reader.pendingReaders++c'.reader.primaryIndex.rs) :
    r ∈ c.reader.writers++c.reader.pendingReaders++c.reader.primaryIndex.rs ∨
      t = .pushWriter r ∨ t = .pushReader r ∨ ∃ i, t = .pushCompacted i r := by
  cases hs with
  | pushWriter w =>
    simp only [Reader.pushWriter,List.cons_append,List.mem_cons] at hr
    rcases hr with rfl | hr
    · exact .inr (.inl rfl)
    · exact .inl hr
  | pushReader w =>
    simp only [Reader.pushReader,List.append_assoc,List.cons_append,List.mem_append,
      List.mem_cons] at hr ⊢
    tauto
  | removeWriter w =>
    simp only [Reader.removeWriter,List.mem_append] at hr ⊢
    exact .inl (hr.imp_left (Or.imp_left List.mem_of_mem_erase))
  | removeMerged _ =>
    simp only [Reader.removeMerged,List.mem_append] at hr ⊢
    exact .inl (hr.imp_left (Or.imp_right List.mem_of_mem_filter))
  | mergeNext hm hstart =>
    simp only [Config.setIndex,Push.start_rs hstart,List.mem_append,List.mem_singleton] at hr ⊢
    rcases hr with hr | hr | rfl
    · exact .inl (.inl hr)
    · exact .inl (.inr hr)
    · exact .inl (.inl (.inr (hcopied _ _ _ hm _ List.mem_cons_self)))
  | pushCompacted _ hstart =>
    simp only [Config.setIndex,Config.setHolder,Push.start_rs hstart,List.mem_append,
      List.mem_singleton] at hr ⊢
    rcases hr with hr | hr | rfl
    · exact .inl (.inl hr)
    · exact .inl (.inr hr)
    · exact .inr (.inr (.inr ⟨_,rfl⟩))
  | mergePass _ hpass | compactedPass _ hpass =>
    simp only [Config.setIndex,Config.setHolder,Push.pass_rs hpass] at hr
    exact .inl hr
  | removeUnused _ _ hremove =>
    simp only [BlockMap.Reader.removeTable] at hremove
    split_ifs at hremove
    cases hremove
    simp only [Config.setIndex,Config.setHolder,BlockMap.Reader.release,List.mem_append] at hr ⊢
    exact .inl (hr.imp_right List.mem_of_mem_erase)
  | copyPending _ _ _ | drained _ | startCompaction _ _ | countLive _ _ | done _ _ => exact .inl hr

section Steps

variable {InUse Holds : σ → (ℕ → Option (List UInt8)) → Prop}
  {data : ℕ → ℕ → Option (List UInt8)} {ws : List BlockWrite}

theorem Inv.active_mem (h : Inv b InUse Holds data ws d) :
    d.activeWriter ∈ d.tracker.reader.writers := by
  rw [h.writers]
  cases d.phase <;> simp [Phase.writers]

/-- A step brings only a new file into use. -/
theorem Inv.inUse_move (h : Inv b InUse Holds data ws d) (hm : d.Moves b a d') {r : ℕ}
    (hr : r ∈ d'.inUse) : r ∈ d.inUse ∨ r = d.created := by
  simp only [inUse,List.mem_append] at hr ⊢
  cases hm with
  | pushWriter hp =>
    simp only [addFile,Reader.pushWriter,Phase.table,List.mem_cons,List.not_mem_nil] at hr
    tauto
  | pushNewLog hp =>
    simp only [Phase.table,List.mem_append,List.mem_singleton,List.not_mem_nil] at hr
    have hactive := h.active_mem
    rcases hr with (hr | hr | rfl) | hr
    · tauto
    · tauto
    · tauto
    · cases hr
  | closeWriter _ _ => exact .inl hr
  | build hp _ =>
    simp only [addFile,Phase.table,List.mem_singleton] at hr
    tauto
  | removePending _ _ =>
    rcases hr with (hr | hr) | hr
    · tauto
    · rw [← List.diff_eq_foldl] at hr
      have := List.diff_subset _ _ hr
      tauto
    · cases hr
  | @track t ph c hnext hs =>
    have hcopied : ∀ rs todo p, d.tracker.merge = .merging rs todo p →
        ∀ r ∈ todo, r ∈ d.tracker.reader.pendingReaders := by
      intro rs todo p hmerge r hr
      obtain ⟨_,hin,htodo,_⟩ := h.tracker.copied rs todo p hmerge
      exact hin r (htodo r hr)
    rcases hr with (hr | hr) | hr
    · rw [← List.mem_append,← List.mem_append] at hr
      rcases tracker_lists (Config.step_moves hs) hcopied hr with hr | ht
      · simp only [List.mem_append] at hr
        tauto
      · have hpushed := hnext.pushed_mem d.activeWriter ht
        rw [← h.writers] at hpushed
        tauto
    · tauto
    · have := hnext.table_subset hr
      tauto

/-- The merge loop adds no reader to the pending ones. -/
theorem pendingReaders_of_merge {c c' : Tracker.Config ℕ}
    {env : ℕ → BlockHoleReader (List UInt8)} {t : Tracker.Action ℕ} (ht : t.ofMerge = true)
    (hs : c.Moves env t c') (hp : c.reader.pendingReaders = []) :
    c'.reader.pendingReaders = [] := by
  cases hs with
  | removeMerged _ =>
    show c.reader.pendingReaders.filter _ = []
    rw [hp,List.filter_nil]
  | copyPending _ _ _ | mergeNext _ _ | mergePass _ _ | drained _ => exact hp
  | _ => cases ht

/-- A compaction starts without pending readers, and there are no others to come. -/
theorem pendingReaders_track {started : ℕ} {ph ph' : Phase} {c c' : Tracker.Config ℕ}
    {env : ℕ → BlockHoleReader (List UInt8)} {t : Tracker.Action ℕ}
    (hnext : Phase.Next started ph t ph') (hs : c.Moves env t c')
    (hq : ph.inCompaction = true → c.reader.pendingReaders = [])
    (hph : ph'.inCompaction = true) : c'.reader.pendingReaders = [] := by
  cases hnext with
  | pushReader _ | removeWriter _ | done _ => cases hph
  | merge _ ht => exact pendingReaders_of_merge ht hs (hq hph)
  | startCompaction =>
    cases hs with
    | startCompaction _ hp => exact hp
  | pushCompacted _ _ _ | compactedPass _ _ | countLive _ | removeUnused _ _ =>
    cases hs
    exact hq rfl

theorem Inv.quiet_move (h : Inv b InUse Holds data ws d) (hq : d.Quiet) (hm : d.Moves b a d') :
    d'.Quiet := by
  cases hm with
  | pushWriter _ | pushNewLog _ =>
    exact ⟨fun hph => (by cases hph),fun _ hph => (by cases hph)⟩
  | closeWriter _ _ => exact ⟨hq.readers,hq.logs⟩
  | build hp _ => exact ⟨fun _ => hq.readers (by rw [hp]; rfl),fun _ hph => (by cases hph)⟩
  | @removePending i logs hp _ =>
    refine ⟨fun _ => hq.readers (by rw [hp]; rfl),fun _ _ => ?_⟩
    have hlogs := h.inPhase
    rw [hp] at hlogs
    show logs.foldl List.erase d.pendingWriters = []
    rw [show d.pendingWriters = logs from hlogs,foldl_erase_self]
  | @track t ph c hnext hs =>
    refine ⟨pendingReaders_track hnext (Config.step_moves hs) hq.readers,fun i hph => ?_⟩
    have hlogs := hq.logs
    generalize d.phase = ph₀ at hnext hlogs
    cases hnext with
    | countLive _ | removeUnused _ _ => exact hlogs _ rfl
    | merge _ _ => exact hlogs i hph
    | _ => cases hph

/-- What the block map finds is in its list. -/
theorem Inv.mem_of_find (h : Inv b InUse Holds data ws d) {x r : ℕ}
    (hx : d.tracker.reader.primaryIndex.find x = some r) :
    r ∈ d.tracker.reader.primaryIndex.rs := by
  obtain ⟨own,hown,_⟩ := h.tracker.exists_owned
  rw [hown.find_eq] at hx
  exact hown.listed x r hx

/-- A reader that is about to be removed is not found any more, and new reads do not have it in
their stacks. -/
theorem Inv.not_found (h : Inv b InUse Holds data ws d) (hq : d.Quiet) {r : ℕ} (hr : d.Unused r) :
    r ∉ d.tracker.reader.writers++d.tracker.reader.pendingReaders ∧ r ∉ d.pendingWriters ∧
      r ∈ d.tracker.reader.primaryIndex.rs ∧
      ∀ x, d.tracker.reader.primaryIndex.find x ≠ some r := by
  obtain ⟨live,hlive,hzero⟩ := hr
  obtain ⟨i,hp,hi⟩ := liveBlocks_eq_some hlive
  obtain ⟨hlisted,hdead⟩ := h.tracker.dead i live hi r hzero
  have hne : r ≠ d.activeWriter := by
    have hreg := mem_readers_of_registered (h.tracker.listed r hlisted)
    exact (h.retired r (mem_retired_of_readers hreg)).2
  refine ⟨?_,?_,hlisted,fun x hx => ?_⟩
  · rw [h.writers,hq.readers (by rw [hp]; rfl),hp,List.append_nil]
    exact fun hr => hne (List.mem_singleton.mp hr)
  · rw [hq.logs i hp]
    exact List.not_mem_nil
  · rw [(h.tracker.allIndexed hi rfl).1 x] at hx
    exact hdead x hx

/-- The merge loop and the closing of a log leave the counts alone. -/
theorem Inv.unused_move (h : Inv b InUse Holds data ws d) (ha : a.ofCompactWriter = false)
    (hm : d.Moves b a d') {r : ℕ} (hr : d.Unused r) : d'.Unused r := by
  obtain ⟨live,hlive,hzero⟩ := hr
  refine ⟨live,?_,hzero⟩
  cases hm with
  | pushWriter _ | pushNewLog _ | build _ _ | removePending _ _ => cases ha
  | closeWriter _ _ => exact hlive
  | @track t ph c hnext hs =>
    have ht : t.ofMerge = true := by simpa [DeviceAction.ofCompactWriter] using ha
    have hholders := (h.ordered.move ht (Config.step_moves hs)).2.2.1
    generalize hp : d.phase = ph₀ at hnext
    cases hnext with
    | merge _ _ =>
      rw [liveBlocks,hp] at hlive
      rw [liveBlocks,hholders]
      exact hlive
    | _ => cases ht

/-- The removal takes the last use of the reader away. -/
theorem Inv.not_inUse_of_removed (h : Inv b InUse Holds data ws d) (hq : d.Quiet) {i r : ℕ}
    (hr : d.Unused r) (hm : d.Moves b (.track (.removeUnused i r)) d') : r ∉ d'.inUse := by
  obtain ⟨hstack,hpending,_,_⟩ := h.not_found hq hr
  obtain ⟨own,hown,_⟩ := h.tracker.exists_owned
  cases hm with
  | track hnext hs =>
    generalize d.phase = ph₀ at hnext
    cases hnext with
    | merge _ ht => cases ht
    | removeUnused _ _ =>
      cases Config.step_moves hs with
      | removeUnused _ _ hremove =>
        simp only [BlockMap.Reader.removeTable] at hremove
        split_ifs at hremove
        cases hremove
        have herase := hown.nodup.not_mem_erase (a := r)
        simp only [inUse,Config.setIndex,Config.setHolder,BlockMap.Reader.release,Phase.table,
          List.append_nil,List.mem_append] at hstack ⊢
        tauto

end Steps

end Device

namespace ReadingDevice

variable {b : Backend σ} {m m' : ReadingDevice σ}

/-- What a step of the device does beside the device: `RemoveUnusedReader` ends, another step of
`compactWriter` is made while it is not in `RemoveUnusedReader`, or a step of another goroutine. -/
inductive Acts (m : ReadingDevice σ) (d : Device σ) : DeviceAction → ReadingDevice σ → Prop
  | removeUnused {i r : ℕ} (hremoval : m.removal = some r)
      (hreturned : m.hasReturned m.waiting = true) : Acts m d (.track (.removeUnused i r))
        {m with device := d, removal := none, unused := m.unused++[r]}
  | compactWriter {a : DeviceAction} {wb : WaitBarrier.Config} {waiting : Option ℕ}
      (hremoval : m.removal = none)
      (hwb : wb = m.wb ∨ m.wb.step (.barrier true) = .ok (some wb)) :
      Acts m d a {m with device := d, wb := wb, waiting := waiting}
  | other {a : DeviceAction} {wb : WaitBarrier.Config} {draining : Option ℕ}
      (ha : a.ofCompactWriter = false)
      (hwb : wb = m.wb ∨ m.wb.step (.barrier true) = .ok (some wb)) :
      Acts m d a {m with device := d, wb := wb, draining := draining}

theorem act_acts {a : DeviceAction} (h : m.ready a = true) (d : Device σ) :
    m.Acts d a (m.act d a) := by
  simp only [ready,Bool.and_eq_true] at h
  obtain ⟨⟨-,hwait⟩,hguard⟩ := h
  have hnone : a.ofCompactWriter = true → (!a.ofCompactWriter || m.removal.isNone) = true →
      m.removal = none := by
    intro ha hor
    rw [ha] at hor
    exact Option.isNone_iff_eq_none.mp hor
  cases a with
  | pushWriter => exact .compactWriter (hnone rfl hguard) (.inl rfl)
  | pushNewLog => exact .compactWriter (hnone rfl hguard) (.inl rfl)
  | build chosen r => exact .compactWriter (hnone rfl hguard) (.inl rfl)
  | removePending => exact .compactWriter (hnone rfl hguard) (.inl rfl)
  | closeWriter i fault => exact .other rfl (.inl rfl)
  | track t =>
    cases t with
    | copyPending => exact .other rfl (.inl rfl)
    | mergeNext => exact .other rfl (.inl rfl)
    | mergePass => exact .other rfl (.inl rfl)
    | drained => exact .other rfl (.inl rfl)
    | removeMerged => exact .other rfl (.inr rfl)
    | removeWriter w => exact .compactWriter (hnone rfl hguard) (.inr rfl)
    | removeUnused i r => exact .removeUnused (of_decide_eq_true hguard) hwait
    | done i =>
      refine .compactWriter ?_ (.inl rfl)
      simp only [allRemoved,Bool.and_eq_true] at hguard
      have hall := hguard.1
      split at hall
      · exact Option.isNone_iff_eq_none.mp (Bool.and_eq_true_iff.mp hall).2
      · cases hall
    | _ => exact .compactWriter (hnone rfl hguard) (.inl rfl)

theorem returned_of_hasReturned {n : ℕ} (h : m.hasReturned (some n) = true) : m.wb.Returned n := by
  simp only [hasReturned] at h
  split at h
  · next k hk => exact ⟨k,hk,by simpa using h⟩
  · cases h

/-- The reads in flight run in the barrier, a reader that is being removed waits for all those that
may use it, and nothing uses a reader that was removed. -/
structure Inv (m : ReadingDevice σ) : Prop where
  wb : WaitBarrier.Inv m.wb
  nodup : (m.reads.map fun k => k.context).Nodup
  lt : ∀ k ∈ m.reads, k.context < m.wb.contexts.length
  running : ∀ k ∈ m.reads, k.returned = false → m.wb.Running k.context
  quiet : m.device.Quiet
  removal : ∀ r, m.removal = some r → m.device.Unused r ∧
    ∃ n, m.waiting = some n ∧ ∀ k ∈ m.reads, k.Uses r → m.wb.WaitsFor n k.context
  gone : ∀ r ∈ m.unused++m.closed, r < m.device.created ∧ r ∉ m.device.inUse ∧
    ∀ k ∈ m.reads, ¬k.Uses r
  once : (m.unused++m.closed).Nodup

namespace Inv

theorem new : Inv (ReadingDevice.new b) where
  wb := .new
  nodup := List.nodup_nil
  lt := fun k hk => (by cases hk)
  running := fun k hk => (by cases hk)
  quiet := ⟨fun hph => (by cases hph),fun i hph => (by cases hph)⟩
  removal := fun r hr => (by cases hr)
  gone := fun r hr => (by cases hr)
  once := List.nodup_nil

/-- A step of the barrier that ends no read in flight. -/
theorem step_wb (h : Inv m) {a : WaitBarrier.Action} {wb : WaitBarrier.Config}
    (ha : ∀ k ∈ m.reads, k.returned = false → a ≠ .done k.context)
    (hs : m.wb.step a = .ok (some wb)) : Inv {m with wb := wb} where
  wb := h.wb.move hs
  nodup := h.nodup
  lt := fun k hk => (h.lt k hk).trans_le (WaitBarrier.contexts_length_le hs)
  running := fun k hk hret => (h.running k hk hret).step hs (ha k hk hret)
  quiet := h.quiet
  removal := by
    intro r hr
    obtain ⟨hunused,n,hn,hwaits⟩ := h.removal r hr
    exact ⟨hunused,n,hn,fun k hk huses => (hwaits k hk huses).step hs⟩
  gone := h.gone
  once := h.once

theorem of_wb (h : Inv m) {wb : WaitBarrier.Config}
    (hwb : wb = m.wb ∨ m.wb.step (.barrier true) = .ok (some wb)) : Inv {m with wb := wb} := by
  rcases hwb with rfl | hs
  · exact h
  · exact h.step_wb (fun _ _ _ he => by cases he) hs

/-- The read called `n` goes on. It uses what it has used and `found`, readers that are in use and
not about to be removed. -/
theorem of_reads (h : Inv m) (n : ℕ) (f : ReadCall → ReadCall) (found : List ℕ)
    (hcontext : ∀ k, (f k).context = k.context)
    (hreturned : ∀ k, (f k).returned = false → k.returned = false)
    (huses : ∀ k r, (f k).Uses r → k.Uses r ∨ r ∈ found)
    (hfound : ∀ r ∈ found, r ∈ m.device.inUse ∧ ¬m.device.Unused r) :
    Inv {m with reads := m.reads.modify n f} := by
  have hread : ∀ k' ∈ m.reads.modify n f, ∃ k ∈ m.reads, k'.context = k.context ∧
      (k'.returned = false → k.returned = false) ∧ ∀ r, k'.Uses r → k.Uses r ∨ r ∈ found := by
    intro k' hk'
    obtain ⟨i,k,hk,rfl⟩ := exists_of_mem_modify hk'
    refine ⟨k,List.mem_of_getElem? hk,?_⟩
    split_ifs
    · exact ⟨hcontext k,hreturned k,huses k⟩
    · exact ⟨rfl,id,fun r hr => .inl hr⟩
  refine ⟨h.wb,?_,fun k' hk' => ?_,fun k' hk' hret => ?_,h.quiet,fun r hr => ?_,fun r hr => ?_,
    h.once⟩
  · show ((m.reads.modify n f).map fun k => k.context).Nodup
    rw [map_modify_of_eq hcontext]
    exact h.nodup
  · obtain ⟨k,hk,he,-⟩ := hread k' hk'
    rw [he]
    exact h.lt k hk
  · obtain ⟨k,hk,he,hret',-⟩ := hread k' hk'
    rw [he]
    exact h.running k hk (hret' hret)
  · obtain ⟨hunused,c,hc,hwaits⟩ := h.removal r hr
    refine ⟨hunused,c,hc,fun k' hk' hr' => ?_⟩
    obtain ⟨k,hk,he,-,hused⟩ := hread k' hk'
    rw [he]
    rcases hused r hr' with hr' | hr'
    · exact hwaits k hk hr'
    · exact absurd hunused (hfound r hr').2
  · obtain ⟨hlt,hnot,hnone⟩ := h.gone r hr
    refine ⟨hlt,hnot,fun k' hk' hr' => ?_⟩
    obtain ⟨k,hk,-,-,hused⟩ := hread k' hk'
    rcases hused r hr' with hr' | hr'
    · exact hnone k hk hr'
    · exact hnot (hfound r hr').1

/-- The end of a read ends its own context only. -/
theorem finishRead (h : Inv m) {n : ℕ} {k : ReadCall} {wb : WaitBarrier.Config}
    (hn : m.reads[n]? = some k) (hdone : m.wb.step (.done k.context) = .ok (some wb)) :
    Inv {m with wb := wb, reads := m.reads.modify n fun k => {k with returned := true}} := by
  have hreads := h.of_reads n (fun k => {k with returned := true}) [] (fun _ => rfl)
    (fun _ hret => by cases hret) (fun _ _ huses => by cases huses.1) (fun _ hr => by cases hr)
  refine hreads.step_wb (fun k' hk' hret he => ?_) hdone
  obtain ⟨i,x,hx,rfl⟩ := exists_of_mem_modify hk'
  by_cases hi : n = i
  · rw [if_pos hi] at hret
    cases hret
  · rw [if_neg hi] at he
    exact hi (index_inj h.nodup hn hx (WaitBarrier.Action.done.inj he))

section Device

variable {InUse Holds : σ → (ℕ → Option (List UInt8)) → Prop}
  {data : ℕ → ℕ → Option (List UInt8)} {ws : List Device.BlockWrite}

/-- The removed readers stay out of use. -/
theorem gone_move (h : Inv m) (hd : Device.Inv b InUse Holds data ws m.device) {a : DeviceAction}
    {d : Device σ} (hm : m.device.Moves b a d) {r : ℕ} (hr : r ∈ m.unused++m.closed) :
    r < d.created ∧ r ∉ d.inUse ∧ ∀ k ∈ m.reads, ¬k.Uses r := by
  obtain ⟨hlt,hnot,huses⟩ := h.gone r hr
  refine ⟨hlt.trans_le (Device.created_le hm),fun hin => ?_,huses⟩
  rcases hd.inUse_move hm hin with hin | rfl
  · exact hnot hin
  · exact lt_irrefl _ hlt

/-- A step of the device, unless it ends `RemoveUnusedReader`. -/
theorem of_device (h : Inv m) (hd : Device.Inv b InUse Holds data ws m.device) {a : DeviceAction}
    {d : Device σ} (hm : m.device.Moves b a d) {waiting draining : Option ℕ}
    (hremoval : m.removal = none ∨ a.ofCompactWriter = false ∧ waiting = m.waiting) :
    Inv {m with device := d, waiting := waiting, draining := draining} where
  wb := h.wb
  nodup := h.nodup
  lt := h.lt
  running := h.running
  quiet := hd.quiet_move h.quiet hm
  removal := by
    intro r hr
    rcases hremoval with hnone | ⟨ha,rfl⟩
    · rw [show m.removal = some r from hr] at hnone
      cases hnone
    · obtain ⟨hunused,hwaits⟩ := h.removal r hr
      exact ⟨hd.unused_move ha hm hunused,hwaits⟩
  gone := fun r hr => h.gone_move hd hm hr
  once := h.once

/-- No read in flight uses a reader once the wait of `RemoveUnusedReader` is over. -/
theorem not_uses_of_returned (h : Inv m) {r : ℕ} (hremoval : m.removal = some r)
    (hreturned : m.hasReturned m.waiting = true) : ∀ k ∈ m.reads, ¬k.Uses r := by
  intro k hk huses
  obtain ⟨_,n,hn,hwaits⟩ := h.removal r hremoval
  rw [hn] at hreturned
  exact h.wb.not_running (returned_of_hasReturned hreturned) (hwaits k hk huses)
    (h.running k hk huses.1)

theorem removeUnused (h : Inv m) (hd : Device.Inv b InUse Holds data ws m.device) {i r : ℕ}
    {d : Device σ} (hm : m.device.Moves b (.track (.removeUnused i r)) d)
    (hremoval : m.removal = some r) (hreturned : m.hasReturned m.waiting = true) :
    Inv {m with device := d, removal := none, unused := m.unused++[r]} := by
  obtain ⟨hunused,_⟩ := h.removal r hremoval
  have hlisted := (hd.not_found h.quiet hunused).2.2.1
  have hperm : (m.unused++[r]++m.closed).Perm (r::(m.unused++m.closed)) := by
    rw [List.append_assoc]
    exact List.perm_middle
  refine ⟨h.wb,h.nodup,h.lt,h.running,hd.quiet_move h.quiet hm,fun r' hr' => (by cases hr'),
    fun r' hr' => ?_,hperm.nodup_iff.mpr (List.nodup_cons.mpr ⟨fun hr => ?_,h.once⟩)⟩
  · rcases List.mem_cons.mp (hperm.mem_iff.mp hr') with rfl | hr'
    · have hlt := hd.registered_lt (hd.tracker.listed r' hlisted)
      exact ⟨hlt.trans_le (Device.created_le hm),hd.not_inUse_of_removed h.quiet hunused hm,
        h.not_uses_of_returned hremoval hreturned⟩
    · exact h.gone_move hd hm hr'
  · exact (h.gone r hr).2.1 (Device.mem_inUse_of_listed hlisted)

theorem act (h : Inv m) (hd : Device.Inv b InUse Holds data ws m.device) {a : DeviceAction}
    {d : Device σ} (hm : m.device.Moves b a d) (ha : m.Acts d a m') : Inv m' := by
  cases ha with
  | removeUnused hremoval hreturned => exact h.removeUnused hd hm hremoval hreturned
  | compactWriter hremoval hwb => exact (h.of_wb hwb).of_device hd hm (.inl hremoval)
  | other ha hwb => exact (h.of_wb hwb).of_device hd hm (.inr ⟨ha,rfl⟩)

/-- A new read has the stack of the moment. -/
theorem startRead (h : Inv m) (hd : Device.Inv b InUse Holds data ws m.device) :
    Inv m.startRead := by
  have hs : m.wb.step .start = .ok (some m.wb.start) := rfl
  have hwb := h.step_wb (fun _ _ _ he => by cases he) hs
  refine ⟨hwb.wb,?_,?_,?_,h.quiet,?_,?_,h.once⟩
  · simp only [ReadingDevice.startRead,List.map_append,List.map_cons,List.map_nil]
    refine List.nodup_append.mpr ⟨h.nodup,List.nodup_singleton _,fun i hi j hj => ?_⟩
    obtain ⟨k,hk,rfl⟩ := List.mem_map.mp hi
    rw [List.mem_singleton.mp hj]
    exact (h.lt k hk).ne
  · intro k hk
    rcases List.mem_append.mp hk with hk | hk
    · exact hwb.lt k hk
    · rw [List.mem_singleton.mp hk]
      exact (WaitBarrier.running_start m.wb).lt
  · intro k hk hret
    rcases List.mem_append.mp hk with hk | hk
    · exact hwb.running k hk hret
    · rw [List.mem_singleton.mp hk]
      exact WaitBarrier.running_start m.wb
  · intro r hr
    obtain ⟨hunused,n,hn,hwaits⟩ := hwb.removal r hr
    refine ⟨hunused,n,hn,fun k hk huses => ?_⟩
    rcases List.mem_append.mp hk with hk | hk
    · exact hwaits k hk huses
    · rw [List.mem_singleton.mp hk] at huses
      rcases huses.2 with hin | hin
      · exact absurd hin (hd.not_found h.quiet hunused).1
      · cases hin
  · intro r hr
    obtain ⟨hlt,hnot,huses⟩ := h.gone r hr
    refine ⟨hlt,hnot,fun k hk hk' => ?_⟩
    rcases List.mem_append.mp hk with hk | hk
    · exact huses k hk hk'
    · rw [List.mem_singleton.mp hk] at hk'
      rcases hk'.2 with hin | hin
      · exact hnot (Device.mem_inUse_of_stack hin)
      · cases hin

/-- The reader that a read finds is in the block map, and none that is being removed. -/
theorem find (h : Inv m) (hd : Device.Inv b InUse Holds data ws m.device) (n x : ℕ) :
    Inv {m with reads := m.reads.modify n fun k =>
      {k with found := k.found++(m.device.tracker.reader.primaryIndex.find x).toList}} := by
  refine h.of_reads n _ (m.device.tracker.reader.primaryIndex.find x).toList (fun _ => rfl)
    (fun _ hret => hret) (fun k r huses => ?_) (fun r hr => ?_)
  · simp only [ReadCall.Uses,List.mem_append] at huses ⊢
    tauto
  · have hfind := Option.mem_toList.mp hr
    exact ⟨Device.mem_inUse_of_listed (hd.mem_of_find hfind),
      fun hunused => (hd.not_found h.quiet hunused).2.2.2 x hfind⟩

end Device

/-- The barrier of `RemoveUnusedReader` waits for all the reads in flight. -/
theorem removeUnusedReader (h : Inv m) {r : ℕ} (hr : m.device.Unused r) :
    Inv {m with
      wb := m.wb.barrierWithUnlock false
      waiting := some m.wb.calls.length
      removal := some r} := by
  have hwb := h.step_wb (a := .barrier false) (fun _ _ _ he => by cases he) rfl
  refine ⟨hwb.wb,hwb.nodup,hwb.lt,hwb.running,hwb.quiet,fun r' hr' => ?_,hwb.gone,hwb.once⟩
  cases hr'
  exact ⟨hr,_,rfl,fun k hk _ => WaitBarrier.waitsFor_barrier false (h.lt k hk)⟩

theorem close (h : Inv m) {r : ℕ} (hr : r ∈ m.unused) :
    Inv {m with unused := m.unused.erase r, closed := r::m.closed} := by
  have hperm : (m.unused.erase r++r::m.closed).Perm (m.unused++m.closed) :=
    List.perm_middle.trans ((List.perm_cons_erase hr).symm.append_right _)
  exact ⟨h.wb,h.nodup,h.lt,h.running,h.quiet,h.removal,
    fun r' hr' => h.gone r' (hperm.mem_iff.mp hr'),hperm.nodup_iff.mpr h.once⟩

theorem move {InUse Holds : σ → (ℕ → Option (List UInt8)) → Prop}
    {data : ℕ → ℕ → Option (List UInt8)} {ws : List Device.BlockWrite} (h : Inv m)
    (hd : Device.Inv b InUse Holds data ws m.device) {a : ReadAction} (hm : m.Moves b a m') :
    Inv m' := by
  cases hm with
  | startRead => exact h.startRead hd
  | find _ _ => exact h.find hd _ _
  | finishRead hn _ hdone => exact h.finishRead hn hdone
  | removeUnusedReader hlive hr => exact h.removeUnusedReader ⟨_,hlive,hr⟩
  | close hr => exact h.close hr
  | act ha hs => exact h.act hd (Device.step_moves hs) (act_acts ha _)
  | barrier ha hs =>
    refine h.step_wb (fun _ _ _ he => ?_) hs
    rw [he] at ha
    cases ha

end Inv

theorem act_device (d : Device σ) (a : DeviceAction) : (m.act d a).device = d := by
  unfold act
  split <;> rfl

/-- The reads do not disturb the device. -/
theorem Reached.device {ws : List Device.BlockWrite} (h : Reached b ws m) :
    Device.Reached b ws m.device := by
  induction h with
  | new => exact .new
  | write w _ hw hcall ih => exact ih.write w hw hcall
  | step a _ hallowed hs ih =>
    cases step_moves hs with
    | act _ hstep =>
      rw [act_device]
      exact ih.step _ hallowed hstep
    | _ => exact ih

theorem Inv.of_reached {InUse Holds : σ → (ℕ → Option (List UInt8)) → Prop}
    {ws : List Device.BlockWrite} (hkeeps : b.Keeps InUse Holds) (hbs : 0 < b.blockSize)
    (h : Reached b ws m) : Inv m := by
  induction h with
  | new => exact .new
  | write w _ _ hcall ih =>
    obtain ⟨files,rfl⟩ := Device.writeBlocks_ok hcall
    exact ⟨ih.wb,ih.nodup,ih.lt,ih.running,⟨ih.quiet.readers,ih.quiet.logs⟩,ih.removal,ih.gone,
      ih.once⟩
  | step a hreached _ hs ih =>
    obtain ⟨data,hd⟩ := Device.Inv.of_reached hkeeps hbs hreached.device
    exact ih.move hd (step_moves hs)

end ReadingDevice

/-- A reader that is being pushed is in the block map. -/
theorem Device.Inv.push_mem {b : Backend σ} {InUse Holds : σ → (ℕ → Option (List UInt8)) → Prop}
    {data : ℕ → ℕ → Option (List UInt8)} {ws : List Device.BlockWrite} {d : Device σ}
    (h : Device.Inv b InUse Holds data ws d) {p : Push ℕ} (hp : d.tracker.push = some p) :
    p.br ∈ d.tracker.reader.primaryIndex.rs := by
  have hindex := h.tracker.index
  rw [hp] at hindex
  obtain ⟨_,base,_,hidx,hpush,⟨_,_,hown⟩,_⟩ := hindex
  obtain ⟨rangeMap,hsame⟩ := hpush.same
  refine (hown.index p.br).mpr ?_
  rw [show d.tracker.reader.primaryIndex = _ from hsame]
  exact Option.ne_none_iff_exists'.mpr ⟨p.iv,hidx⟩

namespace ReadingDevice

/-- Whatever reads, merges and compactions do, a file is closed once only and after its last use: no
read in flight has a closed file in its stack or got it from the block map, and nothing to come can
get one. -/
theorem closed_files_not_used {b : Backend σ} {m : ReadingDevice σ}
    {InUse Holds : σ → (ℕ → Option (List UInt8)) → Prop} {ws : List Device.BlockWrite}
    (hkeeps : b.Keeps InUse Holds) (hbs : 0 < b.blockSize) (h : Reached b ws m) :
    m.closed.Nodup ∧ ∀ r ∈ m.closed,
      (∀ k ∈ m.reads, k.returned = false → r ∉ k.stack ∧ r ∉ k.found) ∧ r ∉ m.device.inUse ∧
      ∀ p, m.device.tracker.push = some p → p.br ≠ r := by
  have hinv := Inv.of_reached hkeeps hbs h
  obtain ⟨data,hd⟩ := Device.Inv.of_reached hkeeps hbs h.device
  refine ⟨(List.nodup_append.mp hinv.once).2.1,fun r hr => ?_⟩
  obtain ⟨-,hnot,huses⟩ := hinv.gone r (List.mem_append_right _ hr)
  refine ⟨fun k hk hret => ?_,hnot,fun p hp he => ?_⟩
  · exact ⟨fun hin => huses k hk ⟨hret,.inl hin⟩,fun hin => huses k hk ⟨hret,.inr hin⟩⟩
  · exact hnot (he ▸ Device.mem_inUse_of_listed (hd.push_mem hp))

section Sample

variable {b : Backend σ} {m m' : ReadingDevice σ} {ws : List Device.BlockWrite}

/-- Steps other than the building of a table. -/
theorem Reached.after (h : Reached b ws m) {as : List ReadAction}
    (has : ∀ chosen r, .act (.build chosen r) ∉ as)
    (hs : Transition.after (ReadingDevice.step b) m as = .ok (some m')) : Reached b ws m' := by
  refine invariant_after (Q := Reached b ws) (fun a ha _ _ h hstep => h.step a ?_ hstep) h hs
  cases a with
  | act a =>
    cases a with
    | build chosen r => exact absurd ha (has chosen r)
    | _ => trivial
  | _ => trivial

/-- A read is in flight while the log 0 is rotated, and another one finds a block in it. -/
def rotation : List ReadAction :=
  [.startRead,.act .pushWriter,.act .pushNewLog,.act (.track (.pushReader 0)),
    .act (.track .copyPending),.act (.track .mergeNext),.act (.track .mergePass),
    .act (.track (.removeWriter 0)),.barrier (.unlock 0),.act (.track .mergePass),
    .act (.track .removeMerged),.barrier (.unlock 1),.finishRead 0,.barrier (.wait 0),
    .barrier (.barrierDone 0),.barrier (.wait 1),.barrier (.barrierDone 1),.act (.track .drained),
    .act (.closeWriter 0 none),.act (.track .startCompaction),.startRead,.find 1 1]

/-- The removal of the log 0 waits for that read, and a later read finds the table 2. -/
def removingLog : List ReadAction :=
  [.act (.track (.pushCompacted 0 2)),.act (.track (.compactedPass 0)),
    .act (.track (.compactedPass 0)),.act .removePending,.act (.track (.countLive 0)),
    .removeUnusedReader 0,.startRead,.find 2 1,.finishRead 1,.barrier (.wait 2),
    .barrier (.barrierDone 2),.act (.track (.removeUnused 0 0)),.close 0]

def removalRun (b : Backend σ) (w : Device.BlockWrite) :
    Exec (Option (ReadingDevice σ × Option Error)) := do
  let (d,_,err) ← (Device.new b).writeBlocks b w.buf w.index
  match ← Transition.after (step b) {ReadingDevice.new b with device := d} rotation with
  | none => .ok none
  | some m =>
    let r ← m.device.indexReader b []
    match ← m.step b (.act (.build [] r)) with
    | none => .ok none
    | some m =>
      match ← Transition.after (step b) m removingLog with
      | none => .ok none
      | some m => .ok (some (m,err))

theorem reached_removalRun {InUse Holds : σ → (ℕ → Option (List UInt8)) → Prop}
    (hkeeps : b.Keeps InUse Holds) (hbs : 0 < b.blockSize) {w : Device.BlockWrite}
    (hw : w.InRange b) (h : removalRun b w = .ok (some (m,none))) : Reached b [w] m := by
  obtain ⟨⟨d₁,n₁,err₁⟩,h₁,h⟩ := exists_bind h
  obtain ⟨o₂,h₂,h⟩ := exists_bind h
  cases o₂ with
  | none => cases h
  | some m₂ =>
    obtain ⟨r,hr,h⟩ := exists_bind h
    obtain ⟨o₃,h₃,h⟩ := exists_bind h
    cases o₃ with
    | none => cases h
    | some m₃ =>
      obtain ⟨o₄,h₄,h⟩ := exists_bind h
      cases o₄ with
      | none => cases h
      | some m₄ =>
        cases h
        have hrotated := (Reached.new.write w hw h₁).after (by simp [rotation]) h₂
        cases step_moves h₃ with
        | act _ hbuild =>
          have hallowed := hrotated.device.allowed_build hkeeps hbs hr hbuild
          exact (hrotated.step (.act (.build [] r)) hallowed h₃).after (by simp [removingLog]) h₄

/-- The log 0 is closed while a read is in flight. -/
theorem closed_files_not_used_after_removal : ∃ m,
    Reached (walBackend Wal.wireCodec none 512 4) [.fill 512 7 1] m ∧ m.closed = [0] ∧
      m.reads = [⟨[0],0,[],true⟩,⟨[1],1,[0],true⟩,⟨[1],2,[2],false⟩] ∧
      0 ∉ m.device.inUse ∧ ∀ p, m.device.tracker.push = some p → p.br ≠ 0 := by
  have hrun : (removalRun (walBackend Wal.wireCodec none 512 4) (.fill 512 7 1)).toOption.join.map
      (fun p => ((p.1.closed,p.1.reads),p.2)) =
        some (([0],[⟨[0],0,[],true⟩,⟨[1],1,[0],true⟩,⟨[1],2,[2],false⟩]),none) := by
    decide +kernel
  obtain ⟨⟨m,err⟩,hrun,hview⟩ := exists_of_view hrun
  obtain ⟨hview,rfl⟩ := Prod.mk.inj hview
  obtain ⟨hclosed,hreads⟩ := Prod.mk.inj hview
  have hkeeps := walBackend_keeps Wal.wireCodec none (show 0 < 512 by decide)
    (show 4*512 < 2^63 by decide)
  have hreached := reached_removalRun hkeeps (by decide)
    (Device.BlockWrite.fill_inRange (by decide) 7 (by decide)) hrun
  obtain ⟨-,hnot⟩ := closed_files_not_used hkeeps (by decide) hreached
  have hmem : 0 ∈ m.closed := by
    rw [show m.closed = [0] from hclosed]
    exact List.mem_cons_self
  exact ⟨m,hreached,hclosed,hreads,(hnot 0 hmem).2⟩

end Sample

end ReadingDevice
end Logblock
