import Logblock.Device

/-! What the device shows. The logs and tables behind the active log stay in the order of their
age, and a compacted table brings nothing that was not there: in every state of every run a block
reads as the last write left it. -/
namespace Logblock

open Loop Transition BlockHoleReader BlockMap Tracker Layers BlockLog Readers

variable {σ : Type}

namespace Device

section Invariant

variable (b : Backend σ) (InUse Holds : σ → (ℕ → Option (List UInt8)) → Prop)

/-- The blocks of a file. -/
def FileHolds (data : ℕ → Option (List UInt8)) : DataFile σ → Prop
  | .log s => Holds s data
  | .table r => (r.upTo b.numBlocks).Clean data ∧ ∀ x, b.numBlocks ≤ x → data x = none

/-- The logs and tables that are only read any more. -/
def retired (d : Device σ) : List ℕ := d.tracker.readers++d.pendingWriters++d.closing

/-- The pending logs that the tracker has as readers. -/
def indexedLogs (d : Device σ) : List ℕ :=
  match d.phase with
  | .swapped _ => d.pendingWriters.dropLast
  | _ => d.pendingWriters

/-- What holds in the phases of the goroutine of `compactWriter`. The compacted table brings
nothing that the index does not show. -/
def InPhase (data : ℕ → ℕ → Option (List UInt8)) (d : Device σ) : Phase → Prop
  | .created log => log < d.created ∧ log ≠ d.activeWriter ∧ (∀ r ∈ d.retired, r ≠ log) ∧
    data log = (fun _ => none) ∧ ∃ s, d.files log = .log s ∧ InUse s (data log)
  | .swapped old => old < d.created ∧ old ≠ d.activeWriter ∧ old ∉ d.tracker.readers ∧
    ∃ rest, d.pendingWriters = rest++[old]
  | .pushed old => old ≠ d.activeWriter ∧ ∃ rest, d.pendingWriters = rest++[old]
  | .compacting i => d.tracker.reader.pendingReaders = [] ∧ d.tracker.holders i = some .idle
  | .built _ logs table => d.tracker.reader.pendingReaders = [] ∧ d.pendingWriters = logs ∧
    table < d.created ∧ table ≠ d.activeWriter ∧ Shows data d.tracker.registered [table]
  | .replacing _ logs => d.pendingWriters = logs
  | _ => True

/-- The files have the blocks `data`, and the stack shows the last writes. -/
structure Inv (data : ℕ → ℕ → Option (List UInt8)) (ws : List BlockWrite) (d : Device σ) :
    Prop where
  tracker : Tracker.Inv b.blockSize b.numBlocks data d.tracker
  ordered : d.tracker.Ordered
  replaces : d.tracker.Replaces data
  files : ∀ i < d.created, FileHolds b Holds (data i) (d.files i)
  active : d.activeWriter < d.created ∧
    ∃ s, d.files d.activeWriter = .log s ∧ InUse s (data d.activeWriter)
  retired : ∀ r ∈ d.retired, r < d.created ∧ r ≠ d.activeWriter
  writers : d.tracker.reader.writers = d.phase.writers d.activeWriter
  pending : Shows data d.tracker.readers d.indexedLogs.reverse
  inPhase : InPhase InUse data d d.phase
  content : ∀ x, newest data (d.tracker.reader.writers++d.tracker.readers) x = lastWritten b ws x

end Invariant

section Steps

variable {b : Backend σ} {InUse Holds : σ → (ℕ → Option (List UInt8)) → Prop}
  {data : ℕ → ℕ → Option (List UInt8)} {ws : List BlockWrite} {d d' : Device σ}

/-- A write is laid over what was there. -/
theorem putBlocks_eq (blockSize : ℕ) (w : BlockWrite) (data : ℕ → Option (List UInt8)) (x : ℕ) :
    putBlocks blockSize w.buf w.index data x = (w.payload blockSize x).or (data x) := by
  rw [putBlocks,BlockWrite.payload]
  split_ifs <;> rfl

theorem lastWritten_cons (w : BlockWrite) (ws : List BlockWrite) (x : ℕ) :
    lastWritten b (w::ws) x = (w.payload b.blockSize x).or (lastWritten b ws x) := by
  cases h : w.payload b.blockSize x <;> simp [lastWritten,h]

namespace Inv

theorem mem_retired_of_readers {r : ℕ} (h : r ∈ d.tracker.readers) : r ∈ d.retired :=
  List.mem_append_left _ (List.mem_append_left _ h)

theorem mem_readers_of_registered {r : ℕ} (h : r ∈ d.tracker.registered) : r ∈ d.tracker.readers :=
  List.mem_append_right _ h

theorem new (hkeeps : b.Keeps InUse Holds) :
    Inv b InUse Holds (fun _ _ => none) [] (Device.new b) where
  tracker := by
    have h : Tracker.Inv b.blockSize b.numBlocks (fun _ _ => (none : Option (List UInt8)))
      (.new b.blockSize b.numBlocks : Tracker.Config ℕ) := Tracker.Inv.new b.numBlocks
    exact ⟨h.index,h.size,h.listed,h.copied,h.holder,h.dead⟩
  ordered := Config.Ordered.of_not_merging List.nodup_nil fun _ _ _ hm => by cases hm
  replaces := fun i p hi => by cases hi
  files := fun i _ => hkeeps.holds hkeeps.new
  active := ⟨Nat.one_pos,_,rfl,hkeeps.new⟩
  retired := fun r hr => by cases hr
  writers := rfl
  pending := Shows.nil _ _
  inPhase := trivial
  content := fun x => rfl

/-- Every file is a reader of its blocks. -/
theorem clean (h : Inv b InUse Holds data ws d) (hkeeps : b.Keeps InUse Holds) {i : ℕ}
    (hi : i < d.created) : ((d.env b i).upTo b.numBlocks).Clean (data i) ∧
      ∀ x, b.numBlocks ≤ x → data i x = none := by
  have hfile := h.files i hi
  rw [env]
  cases hf : d.files i with
  | log s =>
    rw [hf] at hfile
    exact ⟨hkeeps.clean hfile,hkeeps.bounded hfile⟩
  | table r =>
    rw [hf] at hfile
    exact hfile

theorem registered_lt (h : Inv b InUse Holds data ws d) {r : ℕ} (hr : r ∈ d.tracker.registered) :
    r < d.created :=
  (h.retired r (mem_retired_of_readers (mem_readers_of_registered hr))).1

/-- A call of the tracker keeps the index. -/
theorem tracker_moves (h : Inv b InUse Holds data ws d) (hkeeps : b.Keeps InUse Holds)
    {a : Tracker.Action ℕ} {c : Tracker.Config ℕ}
    (hs : d.tracker.step (d.env b) a = .ok (some c)) :
    d.tracker.Moves (fun r => (d.env b r).upTo b.numBlocks) a c ∧
      Tracker.Inv b.blockSize b.numBlocks data c := by
  have hbounded : ∀ r ∈ d.tracker.registered, ((d.env b r).upTo b.numBlocks).Bounded (data r) :=
    fun r hr => (h.clean hkeeps (h.registered_lt hr)).1.toBounded
  have hend : ∀ r ∈ d.tracker.registered, ∀ x, b.numBlocks ≤ x → data r x = none :=
    fun r hr => (h.clean hkeeps (h.registered_lt hr)).2
  rw [h.tracker.step_upTo hbounded hend] at hs
  have hmoves := Config.step_moves hs
  exact ⟨hmoves,h.tracker.move hbounded hend hmoves⟩

/-- The tracker's readers change, and with them the phase. -/
theorem of_tracker (h : Inv b InUse Holds data ws d) {c : Tracker.Config ℕ} {ph : Phase}
    (htracker : Tracker.Inv b.blockSize b.numBlocks data c) (hordered : c.Ordered)
    (hreplaces : c.Replaces data)
    (hretired : ∀ r ∈ c.readers, r < d.created ∧ r ≠ d.activeWriter)
    (hwriters : c.reader.writers = ph.writers d.activeWriter)
    (hpending : Shows data c.readers ({d with tracker := c, phase := ph}).indexedLogs.reverse)
    (hphase : InPhase InUse data {d with tracker := c, phase := ph} ph)
    (hcontent : ∀ x, newest data (c.reader.writers++c.readers) x =
      newest data (d.tracker.reader.writers++d.tracker.readers) x) :
    Inv b InUse Holds data ws {d with tracker := c, phase := ph} where
  tracker := htracker
  ordered := hordered
  replaces := hreplaces
  files := h.files
  active := h.active
  retired := by
    intro r hr
    rcases List.mem_append.mp hr with hr | hr
    · rcases List.mem_append.mp hr with hr | hr
      · exact hretired r hr
      · exact h.retired r (List.mem_append_left _ (List.mem_append_right _ hr))
    · exact h.retired r (List.mem_append_right _ hr)
  writers := hwriters
  pending := hpending
  inPhase := hphase
  content := fun x => (hcontent x).trans (h.content x)

/-- A step of the compaction that changes the index or the holder only. -/
theorem of_holder (h : Inv b InUse Holds data ws d) {c : Tracker.Config ℕ} {ph : Phase}
    (htracker : Tracker.Inv b.blockSize b.numBlocks data c)
    (hm : c.merge = d.tracker.merge) (hw : c.reader.writers = d.tracker.reader.writers)
    (hp : c.reader.pendingReaders = d.tracker.reader.pendingReaders)
    (hr : c.registered = d.tracker.registered) (hreplaces : c.Replaces data)
    (hwriters : ph.writers d.activeWriter = d.phase.writers d.activeWriter)
    (hlogs : ({d with tracker := c, phase := ph}).indexedLogs = d.indexedLogs)
    (hphase : InPhase InUse data {d with tracker := c, phase := ph} ph) :
    Inv b InUse Holds data ws {d with tracker := c, phase := ph} := by
  have hreaders : c.readers = d.tracker.readers := by rw [Config.readers,Config.readers,hp,hr]
  refine h.of_tracker htracker ⟨hp ▸ h.ordered.nodup,?_⟩ hreplaces ?_ ?_ ?_ hphase fun x => ?_
  · rw [hm,hp,hr]
    exact h.ordered.merging
  · rw [hreaders]
    exact fun r hr => h.retired r (mem_retired_of_readers hr)
  · rw [hw,hwriters]
    exact h.writers
  · rw [hreaders,hlogs]
    exact h.pending
  · rw [hreaders,hw]

/-- The merge loop shows what it has shown before. -/
theorem move_merge (h : Inv b InUse Holds data ws d) {a : Tracker.Action ℕ}
    {c : Tracker.Config ℕ} (ha : a.ofMerge = true)
    (hmoves : d.tracker.Moves (fun r => (d.env b r).upTo b.numBlocks) a c)
    (htracker : Tracker.Inv b.blockSize b.numBlocks data c) :
    Inv b InUse Holds data ws {d with tracker := c} := by
  obtain ⟨hordered,hwriters,hholders,-,hreg,hpend,hnewest⟩ := h.ordered.move ha hmoves
  have hreaders : ∀ r ∈ c.readers, r ∈ d.tracker.readers := by
    intro r hr
    rcases List.mem_append.mp hr with hr | hr
    · exact List.mem_append_left _ (hpend r hr)
    · exact hreg r hr
  have hnil : d.tracker.reader.pendingReaders = [] → c.reader.pendingReaders = [] := by
    intro hp
    rw [hp] at hpend
    exact List.eq_nil_iff_forall_not_mem.mpr fun r hr => by cases hpend r hr
  -- while nothing is pending, the readers are those of the index
  have hindexed : d.tracker.reader.pendingReaders = [] → ∀ x,
      newest data c.registered x = newest data d.tracker.registered x := by
    intro hp x
    have := hnewest data x
    rwa [Config.readers,Config.readers,hp,hnil hp,List.nil_append,List.nil_append] at this
  refine of_tracker h htracker hordered ?_ ?_ ?_ ?_ ?_ fun x => ?_
  · intro i p hi
    rw [hholders] at hi
    have hmerge := h.tracker.not_merging hi
    have hsame : c.registered = d.tracker.registered := by
      cases hmoves with
      | mergeNext hm => exact absurd hm (hmerge _ _ _)
      | pushCompacted => cases ha
      | _ => rfl
    rw [hsame]
    exact h.replaces i p hi
  · exact fun r hr => h.retired r (mem_retired_of_readers (hreaders r hr))
  · rw [hwriters]
    exact h.writers
  · exact h.pending.congr (hnewest data)
  · have hphase := h.inPhase
    cases hp : d.phase with
    | idle => trivial
    | rotated => trivial
    | removing i => trivial
    | created log =>
      rw [hp] at hphase
      obtain ⟨hlt,hne,hnot,hlog⟩ := hphase
      refine ⟨hlt,hne,fun r hr => ?_,hlog⟩
      rcases List.mem_append.mp hr with hr | hr
      · rcases List.mem_append.mp hr with hr | hr
        · exact hnot r (mem_retired_of_readers (hreaders r hr))
        · exact hnot r (List.mem_append_left _ (List.mem_append_right _ hr))
      · exact hnot r (List.mem_append_right _ hr)
    | swapped old =>
      rw [hp] at hphase
      obtain ⟨hlt,hne,hnot,hrest⟩ := hphase
      exact ⟨hlt,hne,fun hr => hnot (hreaders old hr),hrest⟩
    | pushed old =>
      rw [hp] at hphase
      exact hphase
    | compacting i =>
      rw [hp] at hphase
      exact ⟨hnil hphase.1,by rw [← hphase.2]; exact congrFun hholders i⟩
    | built i logs table =>
      rw [hp] at hphase
      obtain ⟨hnone,hlogs,hlt,hne,hshows⟩ := hphase
      exact ⟨hnil hnone,hlogs,hlt,hne,hshows.congr (hindexed hnone)⟩
    | replacing i logs =>
      rw [hp] at hphase
      exact hphase
  · rw [newest_append,newest_append,hnewest data x,hwriters]

/-- The other holders of a compaction are none. -/
theorem replaces_setHolder (h : Inv b InUse Holds data ws d) {i : ℕ}
    {ph : HolderPhase ℕ} (hi : d.tracker.holders i = some ph) {c : Tracker.Config ℕ}
    {o : Option (HolderPhase ℕ)} (hc : c.holders = Function.update d.tracker.holders i o)
    (hpush : ∀ p, o = some (.pushing p) → Shows data c.registered.tail [p.br]) :
    c.Replaces data := by
  intro j p hj
  rw [hc] at hj
  rcases eq_or_ne j i with rfl | hne
  · rw [Function.update_self] at hj
    exact hpush p hj
  · rw [Function.update_of_ne hne] at hj
    exact absurd (h.tracker.eq_of_holder hj hi) hne

/-- The old log comes in front of the readers, where it stands behind itself. -/
theorem move_pushReader (h : Inv b InUse Holds data ws d) {old : ℕ} (hp : d.phase = .swapped old)
    (htracker : Tracker.Inv b.blockSize b.numBlocks data
      {d.tracker with reader := d.tracker.reader.pushReader old}) :
    Inv b InUse Holds data ws
      {d with
        tracker := {d.tracker with reader := d.tracker.reader.pushReader old}
        phase := .pushed old} := by
  have hphase := h.inPhase
  rw [hp] at hphase
  obtain ⟨hlt,hne,hnot,rest,hrest⟩ := hphase
  have hwriters := h.writers
  rw [hp] at hwriters
  refine h.of_tracker htracker (h.ordered.pushReader fun hr => hnot (List.mem_append_left _ hr))
    h.replaces ?_ hwriters ?_ ⟨hne,rest,hrest⟩ fun x => ?_
  · intro r hr
    rcases List.mem_cons.mp hr with rfl | hr
    · exact ⟨hlt,hne⟩
    · exact h.retired r (mem_retired_of_readers hr)
  · have hpending := h.pending
    rw [indexedLogs,hp] at hpending
    show Shows data (old::d.tracker.readers) d.pendingWriters.reverse
    simp only [hrest,List.dropLast_concat] at hpending
    rw [hrest,List.reverse_append]
    exact hpending.cons old
  · show newest data (d.tracker.reader.writers++([old]++d.tracker.readers)) x = _
    refine newest_append_of_subset fun r hr => ?_
    rw [hwriters,List.mem_singleton.mp hr]
    simp [Phase.writers]

/-- The old log leaves the writers, behind which it is read. -/
theorem move_removeWriter (h : Inv b InUse Holds data ws d) {old : ℕ} (hp : d.phase = .pushed old)
    (htracker : Tracker.Inv b.blockSize b.numBlocks data
      {d.tracker with reader := d.tracker.reader.removeWriter old}) :
    Inv b InUse Holds data ws
      {d with
        tracker := {d.tracker with reader := d.tracker.reader.removeWriter old}
        phase := .rotated} := by
  have hphase := h.inPhase
  rw [hp] at hphase
  obtain ⟨hne,rest,hrest⟩ := hphase
  have hwriters : d.tracker.reader.writers = [d.activeWriter,old] := by
    rw [h.writers,hp]
    rfl
  have herase : d.tracker.reader.writers.erase old = [d.activeWriter] := by
    rw [hwriters,List.erase_cons_tail (by simpa using hne.symm),List.erase_cons_head]
  have hpending : Shows data d.tracker.readers d.pendingWriters.reverse := by
    have := h.pending
    rwa [indexedLogs,hp] at this
  refine h.of_tracker htracker ⟨h.ordered.nodup,h.ordered.merging⟩ h.replaces
    (fun r hr => h.retired r (mem_retired_of_readers hr)) herase hpending trivial fun x => ?_
  have hshows : Shows data d.tracker.readers [old] := by
    refine Shows.singleton.mpr fun y v hv => hpending.eq_some ?_
    rw [hrest,List.reverse_append]
    exact newest_cons_of_some hv
  show newest data (d.tracker.reader.writers.erase old++d.tracker.readers) x = _
  rw [herase,hwriters,List.singleton_append,List.cons_append,newest_cons,newest_cons,
    hshows x]

theorem move_startCompaction (h : Inv b InUse Holds data ws d) (hp : d.phase = .rotated)
    {c : Tracker.Config ℕ}
    (hmoves : d.tracker.Moves (fun r => (d.env b r).upTo b.numBlocks) .startCompaction c)
    (htracker : Tracker.Inv b.blockSize b.numBlocks data c) :
    Inv b InUse Holds data ws {d with tracker := c, phase := .compacting d.tracker.started} := by
  cases hmoves with
  | startCompaction hs hnone =>
    refine h.of_holder htracker rfl rfl rfl rfl ?_ (by rw [hp]; rfl) (by rw [indexedLogs,indexedLogs,hp])
      ⟨hnone,Function.update_self ..⟩
    intro j p hj
    rcases eq_or_ne j d.tracker.started with rfl | hne
    · cases (Function.update_self ..).symm.trans hj
    · have hj' : d.tracker.holders j = some (.pushing p) :=
        (Function.update_of_ne hne ..).symm.trans hj
      have := h.tracker.holder j _ hj'
      rw [hs] at this
      cases this

/-- The compacted table takes over blocks that it shows as the index did. -/
theorem move_pushCompacted (h : Inv b InUse Holds data ws d) {i table : ℕ} {logs : List ℕ}
    (hp : d.phase = .built i logs table) {c : Tracker.Config ℕ}
    (hmoves : d.tracker.Moves (fun r => (d.env b r).upTo b.numBlocks) (.pushCompacted i table) c)
    (htracker : Tracker.Inv b.blockSize b.numBlocks data c) :
    Inv b InUse Holds data ws {d with tracker := c, phase := .replacing i logs} := by
  have hphase := h.inPhase
  rw [hp] at hphase
  obtain ⟨hnone,hlogs,hlt,hne,hshows⟩ := hphase
  have hwriters := h.writers
  rw [hp] at hwriters
  cases hmoves with
  | @pushCompacted _ _ index p hi hstart =>
    have hnewest : ∀ x, newest data (d.tracker.reader.pendingReaders++table::d.tracker.registered) x =
        newest data d.tracker.readers x := by
      intro x
      rw [Config.readers,hnone]
      exact hshows x
    refine h.of_tracker htracker ?_ ?_ ?_ hwriters ?_ hlogs fun x => ?_
    · exact .of_not_merging h.ordered.nodup (h.tracker.not_merging hi)
    · refine h.replaces_setHolder hi rfl fun p' he => ?_
      cases he
      rw [Push.start_br hstart]
      exact hshows
    · intro r hr
      rcases List.mem_append.mp hr with hr | hr
      · exact h.retired r (mem_retired_of_readers (List.mem_append_left _ hr))
      · rcases List.mem_cons.mp hr with rfl | hr
        · exact ⟨hlt,hne⟩
        · exact h.retired r (mem_retired_of_readers (mem_readers_of_registered hr))
    · have hpending := h.pending
      rw [indexedLogs,hp] at hpending
      exact hpending.congr hnewest
    · exact (newest_append ..).trans ((congrArg _ (hnewest x)).trans (newest_append ..).symm)

theorem move_compactedPass (h : Inv b InUse Holds data ws d) {i : ℕ} {logs : List ℕ}
    (hp : d.phase = .replacing i logs) {c : Tracker.Config ℕ}
    (hmoves : d.tracker.Moves (fun r => (d.env b r).upTo b.numBlocks) (.compactedPass i) c)
    (htracker : Tracker.Inv b.blockSize b.numBlocks data c) :
    Inv b InUse Holds data ws {d with tracker := c, phase := .replacing i logs} := by
  have hphase := h.inPhase
  rw [hp] at hphase
  cases hmoves with
  | @compactedPass _ p index p' hi hpass =>
    refine h.of_holder htracker rfl rfl rfl rfl ?_ (by rw [hp]) (by rw [indexedLogs,indexedLogs,hp])
      hphase
    refine h.replaces_setHolder hi rfl fun q he => ?_
    cases p' with
    | none => cases he
    | some p' =>
      cases he
      rw [Push.pass_br hpass]
      exact h.replaces i p hi

/-- What `removeUnusedTables` does to the index. -/
theorem move_removing (h : Inv b InUse Holds data ws d) {i : ℕ} (hp : d.phase = .removing i)
    {a : Tracker.Action ℕ} (ha : a = .countLive i ∨ (∃ r, a = .removeUnused i r) ∨ a = .done i)
    {c : Tracker.Config ℕ}
    (hmoves : d.tracker.Moves (fun r => (d.env b r).upTo b.numBlocks) a c)
    (htracker : Tracker.Inv b.blockSize b.numBlocks data c) {ph : Phase}
    (hph : ph = .removing i ∨ ph = .idle) :
    Inv b InUse Holds data ws {d with tracker := c, phase := ph} := by
  have hsame : ∀ {hi : HolderPhase ℕ} {o : Option (HolderPhase ℕ)},
      d.tracker.holders i = some hi → c.holders = Function.update d.tracker.holders i o →
      (∀ p, o ≠ some (.pushing p)) → c.merge = d.tracker.merge →
      c.reader.writers = d.tracker.reader.writers →
      c.reader.pendingReaders = d.tracker.reader.pendingReaders →
      c.registered = d.tracker.registered →
      Inv b InUse Holds data ws {d with tracker := c, phase := ph} := by
    intro hi o hholder hc hnot hm hw hpr hr
    have hreplaces := h.replaces_setHolder hholder hc fun p he => absurd he (hnot p)
    rcases hph with rfl | rfl
    · exact h.of_holder htracker hm hw hpr hr hreplaces (by rw [hp])
        (by rw [indexedLogs,indexedLogs,hp]) trivial
    · exact h.of_holder htracker hm hw hpr hr hreplaces (by rw [hp]; rfl)
        (by rw [indexedLogs,indexedLogs,hp]) trivial
  rcases ha with rfl | ⟨r,rfl⟩ | rfl
  · cases hmoves with
    | countLive hi hlive => exact hsame hi rfl (fun p he => by cases he) rfl rfl rfl rfl
  · cases hmoves with
    | removeUnused hi hzero hremove => exact hsame hi rfl (fun p he => by cases he) rfl rfl rfl rfl
  · cases hmoves with
    | done hi hpush => exact hsame hi rfl (fun p he => by cases he) rfl rfl rfl rfl

theorem move_track (h : Inv b InUse Holds data ws d) (hkeeps : b.Keeps InUse Holds)
    {a : Tracker.Action ℕ} {ph : Phase} {c : Tracker.Config ℕ}
    (hnext : Phase.Next d.tracker.started d.phase a ph)
    (hs : d.tracker.step (d.env b) a = .ok (some c)) :
    Inv b InUse Holds data ws {d with tracker := c, phase := ph} := by
  obtain ⟨hmoves,htracker⟩ := h.tracker_moves hkeeps hs
  generalize hp : d.phase = ph₀ at hnext
  cases hnext with
  | pushReader old =>
    cases hmoves
    exact h.move_pushReader hp htracker
  | removeWriter old =>
    cases hmoves
    exact h.move_removeWriter hp htracker
  | startCompaction => exact h.move_startCompaction hp hmoves htracker
  | pushCompacted i logs table => exact h.move_pushCompacted hp hmoves htracker
  | compactedPass i logs => exact h.move_compactedPass hp hmoves htracker
  | countLive i => exact h.move_removing hp (.inl rfl) hmoves htracker (.inl rfl)
  | removeUnused i r => exact h.move_removing hp (.inr (.inl ⟨r,rfl⟩)) hmoves htracker (.inl rfl)
  | done i => exact h.move_removing hp (.inr (.inr rfl)) hmoves htracker (.inr rfl)
  | merge _ ha =>
    subst hp
    exact h.move_merge ha hmoves htracker

theorem indexedLogs_subset {r : ℕ} (hr : r ∈ d.indexedLogs) : r ∈ d.retired := by
  refine List.mem_append_left _ (List.mem_append_right _ ?_)
  rw [indexedLogs] at hr
  split at hr
  · exact List.mem_of_mem_dropLast hr
  · exact hr

section Update

variable {j : ℕ} {v : ℕ → Option (List UInt8)}

theorem update_of_forall_ne {l : List ℕ} (hj : ∀ r ∈ l, r ≠ j) :
    ∀ r ∈ l, Function.update data j v r = data r :=
  fun r hr => Function.update_of_ne (hj r hr) ..

/-- The blocks of a file that is not retired do not matter behind the writers. -/
theorem newest_update (hj : ∀ r ∈ d.retired, r ≠ j) (x : ℕ) :
    newest (Function.update data j v) d.tracker.readers x = newest data d.tracker.readers x :=
  newest_congr fun r hr =>
    congrFun (update_of_forall_ne (fun r hr => hj r (mem_retired_of_readers hr)) r hr) x

variable (h : Inv b InUse Holds data ws d) (hj : ∀ r ∈ d.retired, r ≠ j)

include h hj

theorem tracker_update :
    Tracker.Inv b.blockSize b.numBlocks (Function.update data j v) d.tracker ∧
      d.tracker.Replaces (Function.update data j v) := by
  have hsame : ∀ r ∈ d.tracker.registered, Function.update data j v r = data r :=
    update_of_forall_ne fun r hr => hj r (mem_retired_of_readers (mem_readers_of_registered hr))
  exact ⟨h.tracker.congr hsame,h.tracker.replaces_congr h.replaces hsame⟩

theorem pending_update :
    Shows (Function.update data j v) d.tracker.readers d.indexedLogs.reverse := by
  refine h.pending.congr_data (update_of_forall_ne fun r hr => ?_) (update_of_forall_ne fun r hr => ?_)
  · exact hj r (indexedLogs_subset (List.mem_reverse.mp hr))
  · exact hj r (mem_retired_of_readers hr)

end Update

theorem created_ne (h : Inv b InUse Holds data ws d) : ∀ r ∈ d.retired, r ≠ d.created :=
  fun r hr => (h.retired r hr).1.ne

/-- A new file has the next number. -/
theorem files_addFile (h : Inv b InUse Holds data ws d) {f : DataFile σ}
    {blocks : ℕ → Option (List UInt8)} (hf : FileHolds b Holds blocks f) : ∀ i < d.created+1,
      FileHolds b Holds (Function.update data d.created blocks i)
        (Function.update d.files d.created f i) := by
  intro i hi
  rcases eq_or_ne i d.created with rfl | hne
  · rw [Function.update_self,Function.update_self]
    exact hf
  · rw [Function.update_of_ne hne,Function.update_of_ne hne]
    exact h.files i (by omega)

theorem active_addFile (h : Inv b InUse Holds data ws d) {f : DataFile σ}
    {blocks : ℕ → Option (List UInt8)} : d.activeWriter < d.created+1 ∧
      ∃ s, Function.update d.files d.created f d.activeWriter = .log s ∧
        InUse s (Function.update data d.created blocks d.activeWriter) := by
  obtain ⟨hlt,s,hs,huse⟩ := h.active
  rw [Function.update_of_ne hlt.ne,Function.update_of_ne hlt.ne]
  exact ⟨by omega,s,hs,huse⟩

theorem retired_addFile (h : Inv b InUse Holds data ws d) :
    ∀ r ∈ d.retired, r < d.created+1 ∧ r ≠ d.activeWriter :=
  fun r hr => ⟨(h.retired r hr).1.trans (Nat.lt_succ_self _),(h.retired r hr).2⟩

/-- A new log is laid over everything, without a block. -/
theorem move_pushWriter (h : Inv b InUse Holds data ws d) (hkeeps : b.Keeps InUse Holds)
    (hp : d.phase = .idle) :
    Inv b InUse Holds (Function.update data d.created fun _ => none) ws
      {d.addFile (.log b.newLog) with
        phase := .created d.created
        tracker := {d.tracker with reader := d.tracker.reader.pushWriter d.created}} where
  tracker := by
    have htracker := (h.tracker_update h.created_ne (v := fun _ => none)).1
    exact ⟨htracker.index,htracker.size,htracker.listed,htracker.copied,htracker.holder,
      htracker.dead⟩
  ordered := ⟨h.ordered.nodup,h.ordered.merging⟩
  replaces := (h.tracker_update h.created_ne).2
  files := h.files_addFile (hkeeps.holds hkeeps.new)
  active := h.active_addFile
  retired := h.retired_addFile
  writers := by
    have hwriters := h.writers
    rw [hp] at hwriters
    exact congrArg (d.created::·) hwriters
  pending := by
    have hpending := h.pending_update h.created_ne (v := fun _ => none)
    rw [indexedLogs,hp] at hpending
    exact hpending
  inPhase := by
    refine ⟨Nat.lt_succ_self _,h.active.1.ne',h.created_ne,Function.update_self ..,b.newLog,
      Function.update_self ..,?_⟩
    rw [Function.update_self]
    exact hkeeps.new
  content := by
    intro x
    have hactive : ∀ r ∈ d.tracker.reader.writers, r ≠ d.created := by
      rw [h.writers,hp]
      intro r hr
      rw [List.mem_singleton.mp hr]
      exact h.active.1.ne
    show newest _ (d.created::(d.tracker.reader.writers++d.tracker.readers)) x = _
    rw [newest_cons_of_none (by rw [Function.update_self]),newest_append,
      newest_update h.created_ne,newest_congr fun r hr => congrFun (update_of_forall_ne hactive r hr) x,
      ← newest_append,h.content]

theorem move_pushNewLog (h : Inv b InUse Holds data ws d) {log : ℕ} (hp : d.phase = .created log) :
    Inv b InUse Holds data ws {d with
      activeWriter := log
      pendingWriters := d.pendingWriters++[d.activeWriter]
      closing := d.activeWriter::d.closing
      phase := .swapped d.activeWriter} := by
  have hphase := h.inPhase
  rw [hp] at hphase
  obtain ⟨hlt,hne,hnot,_,huse⟩ := hphase
  have hactive : d.activeWriter ∉ d.tracker.readers :=
    fun hr => (h.retired _ (mem_retired_of_readers hr)).2 rfl
  refine ⟨h.tracker,h.ordered,h.replaces,h.files,⟨hlt,huse⟩,fun r hr => ?_,?_,?_,
    ⟨h.active.1,hne.symm,hactive,_,rfl⟩,h.content⟩
  · have hcases : r ∈ d.retired ∨ r = d.activeWriter := by
      simp only [Device.retired,List.mem_append,List.mem_cons] at hr ⊢
      tauto
    rcases hcases with hr | rfl
    · exact ⟨(h.retired r hr).1,hnot r hr⟩
    · exact ⟨h.active.1,hne.symm⟩
  · rw [h.writers,hp]
    rfl
  · have hpending := h.pending
    rw [indexedLogs,hp] at hpending
    show Shows data d.tracker.readers (d.pendingWriters++[d.activeWriter]).dropLast.reverse
    rw [List.dropLast_concat]
    exact hpending

/-- The index of an old log is written behind its entries. -/
theorem move_closeWriter (h : Inv b InUse Holds data ws d) (hkeeps : b.Keeps InUse Holds) {i : ℕ}
    {fault : Option ℕ} {s : σ} (hf : d.files i = .log s) (hi : i ∈ d.closing) :
    Inv b InUse Holds data ws {d with
      files := Function.update d.files i (.log (b.closeWriter s fault))
      closing := d.closing.erase i} := by
  obtain ⟨hlt,hne⟩ := h.retired i (List.mem_append_right _ hi)
  have hsub : ∀ r ∈ d.tracker.readers++d.pendingWriters++d.closing.erase i, r ∈ d.retired := by
    intro r hr
    rcases List.mem_append.mp hr with hr | hr
    · exact List.mem_append_left _ hr
    · exact List.mem_append_right _ (List.mem_of_mem_erase hr)
  refine ⟨h.tracker,h.ordered,h.replaces,fun j hj => ?_,?_,fun r hr => h.retired r (hsub r hr),
    h.writers,h.pending,?_,h.content⟩
  · rcases eq_or_ne j i with rfl | hji
    · have hfile := h.files j hj
      rw [hf] at hfile
      show FileHolds b Holds (data j) (Function.update d.files j _ j)
      rw [Function.update_self]
      exact hkeeps.close hfile fault
    · show FileHolds b Holds (data j) (Function.update d.files i _ j)
      rw [Function.update_of_ne hji]
      exact h.files j hj
  · obtain ⟨hlt',s',hs',huse⟩ := h.active
    exact ⟨hlt',s',(Function.update_of_ne hne.symm ..).trans hs',huse⟩
  · have hphase := h.inPhase
    show InPhase InUse data _ d.phase
    cases hp : d.phase with
    | created log =>
      rw [hp] at hphase
      obtain ⟨hlt',hne',hnot,hdata,s',hs',huse⟩ := hphase
      exact ⟨hlt',hne',fun r hr => hnot r (hsub r hr),hdata,s',
        (Function.update_of_ne (hnot i (List.mem_append_right _ hi)).symm ..).trans hs',huse⟩
    | _ =>
      rw [hp] at hphase
      exact hphase

theorem move_removePending (h : Inv b InUse Holds data ws d) {i : ℕ} {logs : List ℕ}
    (hp : d.phase = .replacing i logs) : Inv b InUse Holds data ws {d with
      pendingWriters := logs.foldl List.erase d.pendingWriters
      phase := .removing i} := by
  have hphase := h.inPhase
  rw [hp] at hphase
  have hlogs : d.pendingWriters = logs := hphase
  rw [hlogs,foldl_erase_self]
  refine ⟨h.tracker,h.ordered,h.replaces,h.files,h.active,fun r hr => h.retired r ?_,?_,
    Shows.nil _ _,trivial,h.content⟩
  · simp only [Device.retired,List.append_nil,List.mem_append] at hr ⊢
    tauto
  · rw [h.writers,hp]
    rfl

section Build

/-- The blocks that are compacted: those of the logs, laid over those of the chosen tables. -/
def compactedBlocks (data : ℕ → ℕ → Option (List UInt8)) (d : Device σ) (chosen : List ℕ) :
    ℕ → Option (List UInt8) :=
  Compaction.compactedBlocks data d.tracker.registered chosen d.pendingWriters

theorem indexReader_blocks (h : Inv b InUse Holds data ws d) (hkeeps : b.Keeps InUse Holds)
    (hbs : 0 < b.blockSize)
    (hown : d.tracker.reader.primaryIndex.Owned (owner data d.tracker.registered))
    {chosen : List ℕ} (hnodup : chosen.Nodup)
    (hchosen : ∀ t ∈ chosen, t ∈ d.tracker.reader.primaryIndex.rs)
    {reader : BlockHoleReader (List UInt8)} (hr : d.indexReader b chosen = .ok reader) :
    reader.Clean (compactedBlocks data d chosen) ∧
      ∀ x, b.numBlocks ≤ x → compactedBlocks data d chosen x = none := by
  refine Compaction.indexReader_blocks hown h.tracker.size hbs hnodup hchosen (fun j hj => ?_) hr
  refine h.clean hkeeps ?_
  rcases hj with hj | hj
  · exact h.registered_lt (h.tracker.listed j (hchosen j hj))
  · exact (h.retired j (List.mem_append_left _ (List.mem_append_right _ hj))).1

theorem owned_compacting (h : Inv b InUse Holds data ws d) {i : ℕ} (hp : d.phase = .compacting i) :
    d.tracker.reader.primaryIndex.Owned (owner data d.tracker.registered) := by
  have hphase := h.inPhase
  rw [hp] at hphase
  have hindex := h.tracker.index
  rwa [h.tracker.push_eq hphase.2] at hindex

/-- What is compacted are blocks that the index shows. -/
theorem newest_of_compactedBlocks (h : Inv b InUse Holds data ws d) {i : ℕ}
    (hp : d.phase = .compacting i) {chosen : List ℕ} {x : ℕ} {v : List UInt8}
    (hv : compactedBlocks data d chosen x = some v) :
    newest data d.tracker.registered x = some v := by
  have hphase := h.inPhase
  rw [hp] at hphase
  rcases Option.or_eq_some_iff.mp hv with hv | ⟨_,hv⟩
  · have hpending := h.pending
    rw [indexedLogs,hp,Config.readers,hphase.1,List.nil_append] at hpending
    exact hpending.eq_some hv
  · exact Compaction.newest_of_chosenBlocks hv

/-- The table that is built has blocks that the index shows. -/
theorem move_build (h : Inv b InUse Holds data ws d) (hkeeps : b.Keeps InUse Holds)
    (hbs : 0 < b.blockSize) {chosen : List ℕ} {r reader : BlockHoleReader (List UInt8)} {i : ℕ}
    (hallowed : d.Allowed b (.build chosen r)) (hp : d.phase = .compacting i)
    (hr : d.indexReader b chosen = .ok reader) : ∃ blocks,
      Inv b InUse Holds (Function.update data d.created blocks) ws
        {d.addFile (.table r) with phase := .built i d.pendingWriters d.created} := by
  obtain ⟨hnodup,hchosen,hback⟩ := hallowed
  obtain ⟨hclean,hend⟩ := h.indexReader_blocks hkeeps hbs (h.owned_compacting hp) hnodup
    (fun t ht => (hchosen t ht).1) hr
  have hshown : ∀ x v, compactedBlocks data d chosen x = some v →
      newest data d.tracker.registered x = some v := fun x v => h.newest_of_compactedBlocks hp
  generalize compactedBlocks data d chosen = blocks at hclean hend hshown
  obtain ⟨blocks',hclean',hr'⟩ := hback reader hr
  cases hclean'.unique hclean
  have hphase := h.inPhase
  rw [hp] at hphase
  refine ⟨blocks,(h.tracker_update h.created_ne).1,h.ordered,(h.tracker_update h.created_ne).2,
    h.files_addFile ⟨hr',hend⟩,h.active_addFile,h.retired_addFile,?_,?_,
    ⟨hphase.1,rfl,Nat.lt_succ_self _,h.active.1.ne',?_⟩,fun x => ?_⟩
  · have hwriters := h.writers
    rw [hp] at hwriters
    exact hwriters
  · have hpending := h.pending_update h.created_ne (v := blocks)
    rw [indexedLogs,hp] at hpending
    exact hpending
  · refine Shows.singleton.mpr fun x v hv => ?_
    rw [Function.update_self] at hv
    refine Eq.trans (newest_congr fun r hr => ?_) (hshown x v hv)
    exact congrFun (update_of_forall_ne (fun r hr => h.created_ne r
      (mem_retired_of_readers (mem_readers_of_registered hr))) r hr) x
  · have hactive : ∀ r ∈ d.tracker.reader.writers, r ≠ d.created := by
      rw [h.writers,hp]
      intro r hr
      rw [List.mem_singleton.mp hr]
      exact h.active.1.ne
    show newest _ (d.tracker.reader.writers++d.tracker.readers) x = _
    rw [newest_append,newest_update h.created_ne,
      newest_congr fun r hr => congrFun (update_of_forall_ne hactive r hr) x,← newest_append,
      h.content]

end Build

/-- Nothing that holds a block stands in front of the active log. -/
theorem exists_writers (h : Inv b InUse Holds data ws d) : ∃ front back,
    d.tracker.reader.writers = front++d.activeWriter::back ∧
      (∀ r ∈ front, r ≠ d.activeWriter ∧ ∀ x, data r x = none) ∧ ∀ r ∈ back, r ≠ d.activeWriter := by
  have hphase := h.inPhase
  rw [h.writers]
  cases hp : d.phase with
  | created log =>
    rw [hp] at hphase
    obtain ⟨_,hne,_,hdata,_⟩ := hphase
    refine ⟨[log],[],rfl,fun r hr => ?_,fun r hr => (by cases hr)⟩
    rw [List.mem_singleton.mp hr]
    exact ⟨hne,congrFun hdata⟩
  | swapped old =>
    rw [hp] at hphase
    exact ⟨[],[old],rfl,fun r hr => (by cases hr),fun r hr => List.mem_singleton.mp hr ▸ hphase.2.1⟩
  | pushed old =>
    rw [hp] at hphase
    exact ⟨[],[old],rfl,fun r hr => (by cases hr),fun r hr => List.mem_singleton.mp hr ▸ hphase.1⟩
  | _ => exact ⟨[],[],rfl,fun r hr => (by cases hr),fun r hr => (by cases hr)⟩

theorem writers_lt (h : Inv b InUse Holds data ws d) :
    ∀ r ∈ d.tracker.reader.writers, r < d.created := by
  have hphase := h.inPhase
  have hactive := h.active.1
  rw [h.writers]
  cases hp : d.phase with
  | created log =>
    rw [hp] at hphase
    exact List.forall_mem_cons.mpr ⟨hphase.1,List.forall_mem_singleton.mpr hactive⟩
  | swapped old =>
    rw [hp] at hphase
    exact List.forall_mem_cons.mpr ⟨hactive,List.forall_mem_singleton.mpr hphase.1⟩
  | pushed old =>
    rw [hp] at hphase
    obtain ⟨_,rest,hrest⟩ := hphase
    have hold : old ∈ d.retired :=
      List.mem_append_left _ (List.mem_append_right _ (by rw [hrest]; simp))
    exact List.forall_mem_cons.mpr
      ⟨hactive,List.forall_mem_singleton.mpr (h.retired old hold).1⟩
  | _ => exact List.forall_mem_singleton.mpr hactive

/-- The active log gets other blocks. -/
theorem of_write (h : Inv b InUse Holds data ws d) (hkeeps : b.Keeps InUse Holds) {s : σ}
    {blocks : ℕ → Option (List UInt8)} (huse : InUse s blocks) {ws' : List BlockWrite}
    (hcontent : ∀ front back, d.tracker.reader.writers = front++d.activeWriter::back →
      (∀ r ∈ front, ∀ x, data r x = none) → ∀ x, (blocks x).or (newest data
        (back++d.tracker.readers) x) = lastWritten b ws' x) :
    Inv b InUse Holds (Function.update data d.activeWriter blocks) ws'
      {d with files := Function.update d.files d.activeWriter (.log s)} := by
  have hj : ∀ r ∈ d.retired, r ≠ d.activeWriter := fun r hr => (h.retired r hr).2
  refine ⟨(h.tracker_update hj).1,h.ordered,(h.tracker_update hj).2,fun i hi => ?_,
    ⟨h.active.1,s,Function.update_self ..,?_⟩,h.retired,h.writers,h.pending_update hj,?_,fun x => ?_⟩
  · show FileHolds b Holds (Function.update data d.activeWriter blocks i)
      (Function.update d.files d.activeWriter (.log s) i)
    rcases eq_or_ne i d.activeWriter with rfl | hne
    · rw [Function.update_self,Function.update_self]
      exact hkeeps.holds huse
    · rw [Function.update_of_ne hne,Function.update_of_ne hne]
      exact h.files i hi
  · show InUse s (Function.update data d.activeWriter blocks d.activeWriter)
    rw [Function.update_self]
    exact huse
  · have hphase := h.inPhase
    show InPhase InUse (Function.update data d.activeWriter blocks) _ d.phase
    cases hp : d.phase with
    | created log =>
      rw [hp] at hphase
      obtain ⟨hlt,hne,hnot,hdata,s',hs',huse'⟩ := hphase
      have hsame : Function.update data d.activeWriter blocks log = data log :=
        Function.update_of_ne hne ..
      refine ⟨hlt,hne,hnot,hsame.trans hdata,s',(Function.update_of_ne hne ..).trans hs',?_⟩
      rw [hsame]
      exact huse'
    | built i logs table =>
      rw [hp] at hphase
      obtain ⟨hnone,hlogs,hlt,hne,hshows⟩ := hphase
      refine ⟨hnone,hlogs,hlt,hne,hshows.congr_data (update_of_forall_ne fun r hr => ?_)
        (update_of_forall_ne fun r hr => ?_)⟩
      · rw [List.mem_singleton.mp hr]
        exact hne
      · exact hj r (mem_retired_of_readers (mem_readers_of_registered hr))
    | _ =>
      rw [hp] at hphase
      exact hphase
  · obtain ⟨front,back,hwriters,hfront,hback⟩ := h.exists_writers
    show newest _ (d.tracker.reader.writers++d.tracker.readers) x = _
    rw [← hcontent front back hwriters (fun r hr => (hfront r hr).2) x,hwriters,List.append_assoc,
      newest_append,newest_eq_none.mpr fun r hr => ?_,Option.none_or,List.cons_append,newest_cons,
      Function.update_self]
    · congr 1
      rw [newest_append,newest_append,newest_update hj]
      congr 1
      exact newest_congr fun r hr => congrFun (update_of_forall_ne hback r hr) x
    · rw [Function.update_of_ne (hfront r hr).1]
      exact (hfront r hr).2 x

/-- A write on the device is the last one for its blocks, or it fails and leaves all blocks. -/
theorem move_write (h : Inv b InUse Holds data ws d) (hkeeps : b.Keeps InUse Holds) {w : BlockWrite}
    (hw : w.InRange b) : ∃ d' n err, d.writeBlocks b w.buf w.index = .ok (d',n,err) ∧
      ∃ data', Inv b InUse Holds data' (if err = none then w::ws else ws) d' := by
  obtain ⟨_,s,hs,huse⟩ := h.active
  obtain ⟨s',n,err,hcall,hok,hfail⟩ := hkeeps.write w.buf w.index huse hw.1 hw.2
  refine ⟨_,n,err,by simp only [writeBlocks,hs,hcall]; rfl,?_⟩
  -- the blocks of the active log are in front of all others
  have hsplit : ∀ front back, d.tracker.reader.writers = front++d.activeWriter::back →
      (∀ r ∈ front, ∀ x, data r x = none) → ∀ x, (data d.activeWriter x).or (newest data
        (back++d.tracker.readers) x) = lastWritten b ws x := by
    intro front back hwriters hfront x
    have hx := h.content x
    rw [hwriters,List.append_assoc,newest_append,newest_eq_none.mpr fun r hr => hfront r hr x,
      Option.none_or,List.cons_append,newest_cons] at hx
    exact hx
  by_cases he : err = none
  · rw [if_pos he]
    refine ⟨_,h.of_write hkeeps (hok he) fun front back hwriters hfront x => ?_⟩
    rw [putBlocks_eq,lastWritten_cons,Option.or_assoc,hsplit front back hwriters hfront x]
  · rw [if_neg he]
    exact ⟨_,h.of_write hkeeps (hfail he) hsplit⟩

theorem move (h : Inv b InUse Holds data ws d) (hkeeps : b.Keeps InUse Holds)
    (hbs : 0 < b.blockSize) {a : DeviceAction} (hallowed : d.Allowed b a)
    (hmoves : d.Moves b a d') : ∃ data', Inv b InUse Holds data' ws d' := by
  cases hmoves with
  | pushWriter hp => exact ⟨_,h.move_pushWriter hkeeps hp⟩
  | pushNewLog hp => exact ⟨_,h.move_pushNewLog hp⟩
  | closeWriter hf hi => exact ⟨_,h.move_closeWriter hkeeps hf hi⟩
  | build hp hr =>
    obtain ⟨blocks,hinv⟩ := h.move_build hkeeps hbs hallowed hp hr
    exact ⟨_,hinv⟩
  | removePending hp _ => exact ⟨_,h.move_removePending hp⟩
  | track hnext hs => exact ⟨_,h.move_track hkeeps hnext hs⟩

/-- The invariant holds along every run. -/
theorem of_reached (hkeeps : b.Keeps InUse Holds) (hbs : 0 < b.blockSize) (h : Reached b ws d) :
    ∃ data, Inv b InUse Holds data ws d := by
  induction h with
  | new => exact ⟨_,Inv.new hkeeps⟩
  | write w _ hw hcall ih =>
    obtain ⟨data,hinv⟩ := ih
    obtain ⟨d₁,n,err,hcall',hinv'⟩ := hinv.move_write hkeeps hw
    rw [hcall] at hcall'
    cases hcall'
    exact hinv'
  | step a _ hallowed hs ih =>
    obtain ⟨data,hinv⟩ := ih
    exact hinv.move hkeeps hbs hallowed (step_moves hs)

end Inv

/-- Readers of the device, with the index below them. -/
theorem exists_deviceReaders {env : ℕ → BlockHoleReader (List UInt8)} {numBlocks : ℕ} {l : List ℕ}
    (h : ∀ i ∈ l, ((env i).upTo numBlocks).Clean (data i) ∧ ∀ x, numBlocks ≤ x → data i x = none)
    {r : BlockHoleReader (List UInt8)} {blocks : ℕ → Option (List UInt8)}
    (hr : (r.upTo numBlocks).Clean blocks) (hend : ∀ x, numBlocks ≤ x → blocks x = none) :
    ∃ ds : List (DeviceReader (List UInt8) numBlocks), ds ≠ [] ∧
      ds.map DeviceReader.reader = l.map env++[r] ∧
      ∀ x, top (ds.map DeviceReader.layer) x = (newest data l x).or (blocks x) := by
  induction l with
  | nil => exact ⟨[⟨r,blocks,hr.toMeets,hend⟩],by simp,rfl,fun x => by simp [top,DeviceReader.layer]⟩
  | cons i l ih =>
    obtain ⟨ds,_,hmap,htop⟩ := ih fun j hj => h j (List.mem_cons_of_mem i hj)
    obtain ⟨hclean,hend⟩ := h i List.mem_cons_self
    refine ⟨⟨env i,data i,hclean.toMeets,hend⟩::ds,by simp,by simp [hmap],fun x => ?_⟩
    rw [List.map_cons,top,htop,newest_cons,Option.or_assoc]
    rfl

/-- A read shows the last writes. -/
theorem Inv.readBlocks_eq (h : Inv b InUse Holds data ws d) (hkeeps : b.Keeps InUse Holds)
    (hbs : 0 < b.blockSize) (k off : ℕ) : d.readBlocks b (k*b.blockSize) off =
      .ok ⟨(List.range' off (min k (b.numBlocks-off))).map
          fun x => (lastWritten b ws x).getD (zeroBlock b),
        min k (b.numBlocks-off),if min k (b.numBlocks-off) < k then some .eof else none⟩ := by
  obtain ⟨own,hown,hheld,hview⟩ := h.tracker.exists_view h.ordered h.replaces
  have hregistered : ∀ r ∈ d.tracker.reader.primaryIndex.rs, ((d.env b r).upTo b.numBlocks).Clean
      (data r) ∧ ∀ x, b.numBlocks ≤ x → data r x = none :=
    fun r hr => h.clean hkeeps (h.registered_lt (h.tracker.listed r hr))
  have hclean := hown.blocks_clean (fun r hr => (hregistered r hr).1)
    (fun r hr => (hregistered r hr).2) (fun x r hr => (hheld x r hr).2)
    (by rw [h.tracker.size]; exact hbs) (zeroBlock b)
  have hend := hown.blocks_end fun r hr => (hregistered r hr).2
  have hlt : ∀ i ∈ d.tracker.reader.writers++d.tracker.reader.pendingReaders, i < d.created := by
    intro i hi
    rcases List.mem_append.mp hi with hi | hi
    · exact h.writers_lt i hi
    · exact (h.retired i (mem_retired_of_readers (List.mem_append_left _ hi))).1
  obtain ⟨ds,hne,hmap,htop⟩ := exists_deviceReaders (fun i hi => h.clean hkeeps (hlt i hi))
    (hclean.upTo hend) hend
  have hread := readBlocks_device (zeroBlock b) ds hne b.blockSize hbs k off
  rw [hmap] at hread
  refine hread.trans ?_
  rw [Readers.content]
  simp only [htop,newest_append,Option.or_assoc,hview]
  simp only [← newest_append,h.content]

end Steps

section Run

variable {b : Backend σ} {InUse Holds : σ → (ℕ → Option (List UInt8)) → Prop}
  {ws : List BlockWrite} {d d' : Device σ}

/-- The logs are compacted without a table, into one that reads like the reader it was built
from. -/
theorem Reached.allowed_build (hkeeps : b.Keeps InUse Holds) (hbs : 0 < b.blockSize)
    (h : Reached b ws d) {r : BlockHoleReader (List UInt8)} (hr : d.indexReader b [] = .ok r)
    (hs : d.step b (.build [] r) = .ok (some d')) : d.Allowed b (.build [] r) := by
  refine ⟨List.nodup_nil,fun t ht => (by cases ht),fun reader hreader => ?_⟩
  rw [hr] at hreader
  cases hreader
  obtain ⟨data,hinv⟩ := Inv.of_reached hkeeps hbs h
  cases step_moves hs with
  | build hp _ =>
    obtain ⟨hclean,hend⟩ := hinv.indexReader_blocks hkeeps hbs (hinv.owned_compacting hp)
      List.nodup_nil (fun t ht => by cases ht) hr
    exact ⟨_,hclean,hclean.upTo hend⟩

end Run

/-- A write of one block with equal bytes. -/
def BlockWrite.fill (blockSize : ℕ) (v : UInt8) (index : ℕ) : BlockWrite :=
  ⟨List.replicate blockSize v,index⟩

theorem BlockWrite.fill_inRange {b : Backend σ} (hbs : 0 < b.blockSize) (v : UInt8) {index : ℕ}
    (h : index < b.numBlocks) : (fill b.blockSize v index).InRange b := by
  rw [InRange,fill,List.length_replicate,Nat.mod_self,Nat.div_self hbs]
  exact ⟨rfl,h⟩

end Device
end Logblock
