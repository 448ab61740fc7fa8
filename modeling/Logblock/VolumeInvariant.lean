import Logblock.Volume
import Logblock.Transition

/-! What holds between the effects of a process on the files. The saved list and the readers go
in the same order, logs over tables, and what a step hides or deletes is shown by others. -/
namespace Logblock
namespace Volume

open Layers BlockMap FileNames

variable {β : Type}

section Names

/-- The name of a file; the sequence numbers of the tables lie below `bound`. -/
def WellNamed (bound : ℕ) (e : DataFileEntry) : Prop :=
  match e.type with
  | .writeLog => ∃ n, e.name = logName n
  | .sparseTable => ∃ seq < bound, e.name = tableName seq

variable {bound : ℕ} {e e' : DataFileEntry}

theorem wellNamed_log (bound n : ℕ) : WellNamed bound (logEntry (logName n)) := ⟨n,rfl⟩

theorem wellNamed_table {seq : ℕ} (h : seq < bound) :
    WellNamed bound (tableEntry (tableName seq)) := ⟨seq,h,rfl⟩

theorem WellNamed.mono (h : WellNamed bound e) {bound' : ℕ} (hle : bound ≤ bound') :
    WellNamed bound' e := by
  rcases e with ⟨_ | _,name⟩
  · exact h
  · obtain ⟨seq,hseq,hname⟩ := h
    exact ⟨seq,hseq.trans_le hle,hname⟩

/-- Logs and tables have different names. -/
theorem WellNamed.eq_of_name {bound' : ℕ} (h : WellNamed bound e) (h' : WellNamed bound' e')
    (hname : e.name = e'.name) : e = e' := by
  rcases e with ⟨_ | _,name⟩ <;> rcases e' with ⟨_ | _,name'⟩
  · exact congrArg _ hname
  · obtain ⟨n,hn⟩ := h
    obtain ⟨seq,_,hs⟩ := h'
    exact absurd (hn.symm.trans (hname.trans hs)) (logName_ne_tableName n seq)
  · obtain ⟨seq,_,hs⟩ := h
    obtain ⟨n,hn⟩ := h'
    exact absurd (hn.symm.trans (hname.symm.trans hs)) (logName_ne_tableName n seq)
  · exact congrArg _ hname

theorem not_wellNamed_next (seq : ℕ) : ¬WellNamed seq (tableEntry (tableName seq)) := by
  rintro ⟨seq',hlt,hname⟩
  exact absurd (tableName_inj hname) hlt.ne'

end Names

/-- The table holds what the readers `old` show, and every block of a log among them. -/
structure Covers (data : DataFileEntry → ℕ → Option β) (table : DataFileEntry)
    (old : List DataFileEntry) : Prop where
  shown : Shows data old [table]
  logs : ∀ e ∈ old, e.type = .writeLog → ∀ x, data e x ≠ none → data table x ≠ none

/-- Every log stands before every table. -/
def LogsFirst (l : List DataFileEntry) : Prop :=
  l.Pairwise fun e e' => e'.type = .writeLog → e.type = .writeLog

namespace Process

variable (p : Process)

/-- The pending logs are those among the readers, the oldest first. -/
def PendingLogs : Prop :=
  p.pendingWriters = (p.readers.reverse.filter fun e => e.type = .writeLog).map (·.name)

/-- The saved list is the one of the process, and in the order of the readers. -/
structure Settled (saved : List DataFileEntry) : Prop where
  same : saved = p.metadata.dataFiles
  stacked : saved.reverse = p.stack
  pending : p.PendingLogs

/-- How the saved list, the one of the process and the readers go together. -/
def InPhase (saved : List DataFileEntry) : Prop :=
  match p.phase with
  | .loaded | .idle => p.Settled saved
  | .created log => p.Settled saved ∧ logEntry log ∉ p.stack
  | .listed log => saved.reverse = p.stack ∧ p.metadata.dataFiles = saved++[logEntry log] ∧
      p.PendingLogs
  | .saved log => saved = p.metadata.dataFiles ∧ saved.reverse = logEntry log::p.stack ∧
      p.PendingLogs
  | .rotated => p.Settled saved ∧ ∃ last rest, p.readers = logEntry last::rest
  | .named _ logs table => p.Settled saved ∧ (∃ last rest, p.readers = logEntry last::rest) ∧
      logs = p.pendingWriters ∧ tableEntry table ∉ p.stack ∧
      WellNamed p.nextSeq (tableEntry table)
  | .built logs table => p.Settled saved ∧ (∃ last rest, p.readers = logEntry last::rest) ∧
      logs = p.pendingWriters ∧ tableEntry table ∉ p.stack
  | .replaced logs table => ∃ last rest, p.readers = tableEntry table::logEntry last::rest ∧
      saved = p.metadata.dataFiles ∧ saved.reverse = p.active++logEntry last::rest ∧
      logs.getLast? = some last ∧ p.pendingWriters = []
  | .compacted => ∃ table last rest, p.readers = tableEntry table::logEntry last::rest ∧
      saved.reverse = p.active++logEntry last::rest ∧
      p.metadata.dataFiles.reverse = p.active++tableEntry table::rest ∧ p.pendingWriters = []
  | .removing todo removed => p.pendingWriters = [] ∧ todo.Nodup ∧ removed.Nodup ∧
      (∀ e ∈ todo, e ∈ p.readers) ∧ (∀ e ∈ removed, e ∉ p.stack) ∧
      (∀ e ∈ p.readers, e.type = .writeLog → e ∈ todo) ∧
      ∃ last, (logEntry last ∈ todo ∨ logEntry last ∈ removed) ∧
        p.metadata.dataFiles.reverse = p.active++p.readers.filter (· ≠ logEntry last)
  | .deleting todo => p.Settled saved ∧ todo.Nodup ∧ ∀ e ∈ todo, e ∉ p.stack
  | .closed logs => p.activeWriter = none ∧ saved = p.metadata.dataFiles ∧ logs.Nodup
  | .cleaning logs => p.activeWriter = none ∧ saved = p.metadata.dataFiles ∧ logs.Nodup ∧
      ∀ log ∈ logs, logEntry log ∉ saved

/-- What the files hold at this point. -/
def Kept (data : DataFileEntry → ℕ → Option β) (saved : List DataFileEntry) : Prop :=
  match p.phase with
  | .created log | .listed log | .saved log => ∀ x, data (logEntry log) x = none
  | .built _ table => Covers data (tableEntry table) p.readers
  | .replaced _ _ | .compacted => ∀ table old, p.readers = table::old → Covers data table old
  | .removing todo _ => (∀ e ∈ todo, ∀ x, owner data p.readers x ≠ some e) ∧
      ∃ old, saved.reverse = p.active++old ∧ ∀ x, newest data old x = newest data p.readers x
  | .closed logs => ∀ log ∈ logs, ∀ x, data (logEntry log) x = none
  | _ => True

end Process

/-- A process at work. -/
structure Running (new : Metadata) (v : Volume β) (p : Process) : Prop where
  size : new.SameSize p.metadata
  seq : p.nextSeq ≤ v.named+1
  nodup : p.metadata.dataFiles.Nodup
  stack : p.stack.Nodup
  savedKnown : ∀ e ∈ v.savedFiles, WellNamed p.nextSeq e
  known : ∀ e, e ∈ p.metadata.dataFiles ∨ e ∈ p.openFiles →
    WellNamed p.nextSeq e ∧ (v.files e).isSome
  inPhase : p.InPhase v.savedFiles
  kept : p.Kept v.data v.savedFiles

/-- The saved list names existing files, and its files show the writes that were done. -/
structure Inv (new : Metadata) (ws : List (Write β)) (v : Volume β) : Prop where
  size : ∀ m, v.saved = some m → new.SameSize m
  bounded : ∀ e x, new.numBlocks ≤ x → v.data e x = none
  nodup : v.savedFiles.Nodup
  ordered : LogsFirst v.savedFiles.reverse
  known : ∀ e ∈ v.savedFiles, WellNamed (v.named+1) e ∧ (v.files e).isSome
  content : ∀ x, newest v.data v.savedFiles.reverse x = newest Write.payload ws x
  running : ∀ p, v.process = some p → Running new v p

section Files

variable {v : Volume β} {e e' : DataFileEntry} {d : Option (FileData β)} {p : Process}

theorem logEntry_ne_tableEntry (log table : String) : logEntry log ≠ tableEntry table := by
  intro h
  cases congrArg DataFileEntry.type h

theorem files_put_of_ne (h : e' ≠ e) : (v.put e d p).files e' = v.files e' := by
  simp only [put,Function.update_of_ne h]

theorem data_put_of_ne (h : e' ≠ e) : (v.put e d p).data e' = v.data e' := by
  funext x
  rw [data,files_put_of_ne h]
  rfl

theorem data_put_self (x : ℕ) : (v.put e d p).data e x = d.bind fun d => d.blocks x := by
  rw [data,put]
  simp only [Function.update_self]

/-- A file is created empty or deleted empty. -/
theorem data_put_empty (h : ∀ x, v.data e x = none) (hd : ∀ x, (d.bind fun d => d.blocks x) = none) :
    (v.put e d p).data = v.data := by
  funext e' x
  by_cases he : e' = e
  · rw [he,data_put_self,h,hd]
  · rw [data_put_of_ne he]

end Files

section Steps

variable {new : Metadata} {ws : List (Write β)} {v : Volume β} {p : Process}

/-- The files stay as they are. -/
theorem Inv.goOn (h : Inv new ws v) (hp : Running new v p) :
    Inv new ws {v with process := some p} := by
  refine ⟨h.size,h.bounded,h.nodup,h.ordered,h.known,h.content,fun p' hp' => ?_⟩
  cases hp'
  exact ⟨hp.size,hp.seq,hp.nodup,hp.stack,hp.savedKnown,hp.known,hp.inPhase,hp.kept⟩

theorem Inv.exit (h : Inv new ws v) : Inv new ws {v with process := none} :=
  ⟨h.size,h.bounded,h.nodup,h.ordered,h.known,h.content,fun _ hp => by cases hp⟩

theorem Running.pushWriteLog {log : String} (h : Running new v p)
    (hp : p.phase = .created log) : Running new v
      {p with metadata := p.metadata.pushWriteLog log, phase := .listed log} := by
  rcases p with ⟨m,seq,rs,a,pw,wc,ph⟩
  obtain rfl : ph = .created log := hp
  obtain ⟨hsettled,hlog⟩ := h.inPhase
  have hlog' : logEntry log ∉ m.dataFiles := by
    rw [← hsettled.same,← List.mem_reverse,hsettled.stacked]
    exact hlog
  refine ⟨h.size,h.seq,?_,h.stack,h.savedKnown,fun e he => ?_,
    ⟨hsettled.stacked,congrArg (·++[logEntry log]) hsettled.same.symm,hsettled.pending⟩,h.kept⟩
  · refine List.nodup_append.mpr ⟨h.nodup,List.nodup_singleton _,fun e he e' he' => ?_⟩
    rintro rfl
    obtain rfl : e = logEntry log := List.mem_singleton.mp he'
    exact hlog' he
  · rcases he with he | he
    · rcases List.mem_append.mp he with he | he
      · exact h.known e (.inl he)
      · exact h.known e (.inr (List.mem_append_right _ he))
    · exact h.known e (.inr he)

/-- The name of a new log is new. -/
theorem Inv.makeLogWriter (h : Inv new ws v) (hp : v.process = some p)
    (hphase : p.phase = .loaded ∨ p.phase = .idle) {n : ℕ} {v' : Volume β}
    (hv : v.makeLogWriter p n = some v') : Inv new ws v' := by
  rw [Volume.makeLogWriter] at hv
  split_ifs at hv with hn
  cases hv
  have hfile : v.files (logEntry (logName n)) = none := Option.isNone_iff_eq_none.mp hn.2
  have hdata := data_put_empty (d := some (.log []))
    (p := {p with phase := .created (logName n)})
    (fun x => show v.data (logEntry (logName n)) x = none by rw [data,hfile]; rfl) (fun _ => rfl)
  have hold : ∀ {e}, (v.files e).isSome → e ≠ logEntry (logName n) := by
    rintro e he rfl
    rw [hfile] at he
    cases he
  have hexists : ∀ {e}, (v.files e).isSome → ((v.put (logEntry (logName n)) (some (.log []))
      {p with phase := .created (logName n)}).files e).isSome := by
    intro e he
    rw [files_put_of_ne (hold he)]
    exact he
  have hrun := h.running p hp
  have hsettled : p.Settled v.savedFiles ∧ p.openFiles = p.stack++[] := by
    have hin := hrun.inPhase
    rcases hphase with hph | hph <;>
      simpa only [Process.InPhase,Process.openFiles,Process.phaseFiles,hph,and_true] using hin
  obtain ⟨hsettled,hopen⟩ := hsettled
  refine ⟨h.size,fun e x hx => ?_,h.nodup,h.ordered,fun e he => ?_,fun x => ?_,fun p' hp' => ?_⟩
  · rw [hdata]
    exact h.bounded e x hx
  · exact ⟨(h.known e he).1,hexists (h.known e he).2⟩
  · rw [hdata]
    exact h.content x
  · cases hp'
    have hstack : ∀ e ∈ p.stack, WellNamed p.nextSeq e ∧ (v.files e).isSome := fun e he =>
      hrun.known e (.inr (hopen ▸ List.mem_append_left _ he))
    refine ⟨hrun.size,hrun.seq,hrun.nodup,hrun.stack,hrun.savedKnown,fun e he => ?_,
      ⟨⟨hsettled.same,hsettled.stacked,hsettled.pending⟩,fun hlog => hold (hstack _ hlog).2 rfl⟩,
      fun x => ?_⟩
    · rcases he with he | he
      · exact ⟨(hrun.known e (.inl he)).1,hexists (hrun.known e (.inl he)).2⟩
      · rcases List.mem_append.mp he with he | he
        · exact ⟨(hstack e he).1,hexists (hstack e he).2⟩
        · obtain rfl : e = logEntry (logName n) := List.mem_singleton.mp he
          refine ⟨wellNamed_log _ n,?_⟩
          simp [put]
    · rw [hdata,data,hfile]
      rfl

theorem Inv.saveNewLog (h : Inv new ws v) (hp : v.process = some p) {log : String}
    (hphase : p.phase = .listed log) : Inv new ws
      {v with saved := some p.metadata, process := some {p with phase := .saved log}} := by
  have hrun := h.running p hp
  rcases p with ⟨m,seq,rs,a,pw,wc,ph⟩
  obtain rfl : ph = .listed log := hphase
  obtain ⟨hstack,hlist,hpending⟩ := hrun.inPhase
  have hreverse : m.dataFiles.reverse = logEntry log::v.savedFiles.reverse := by
    rw [show m.dataFiles = v.savedFiles++[logEntry log] from hlist]
    simp
  have hempty : ∀ x, v.data (logEntry log) x = none := hrun.kept
  have hknown : ∀ e ∈ m.dataFiles, WellNamed seq e ∧ (v.files e).isSome := fun e he =>
    hrun.known e (.inl he)
  refine ⟨?_,h.bounded,hrun.nodup,?_,fun e he => ?_,fun x => ?_,fun p' hp' => ?_⟩
  · rintro m' hm'
    cases hm'
    exact hrun.size
  · show LogsFirst m.dataFiles.reverse
    rw [hreverse]
    exact List.Pairwise.cons (fun e he _ => rfl) h.ordered
  · exact ⟨(hknown e he).1.mono hrun.seq,(hknown e he).2⟩
  · show newest v.data m.dataFiles.reverse x = _
    rw [hreverse,newest_cons_of_none (hempty x),h.content]
  · cases hp'
    exact ⟨hrun.size,hrun.seq,hrun.nodup,hrun.stack,fun e he => (hknown e he).1,hrun.known,
      ⟨rfl,hreverse.trans (congrArg _ hstack),hpending⟩,hempty⟩

/-- The new log becomes the active one; it was listed before. -/
theorem Running.pushFirstLog {log : String} (h : Running new v p)
    (hp : p.phase = .saved log) (ha : p.activeWriter = none) :
    Running new v {p with activeWriter := some log, phase := .idle} := by
  rcases p with ⟨m,seq,rs,a,pw,wc,ph⟩
  obtain rfl : ph = .saved log := hp
  obtain rfl : a = none := ha
  obtain ⟨hsame,hstack,hpending⟩ := h.inPhase
  refine ⟨h.size,h.seq,h.nodup,?_,h.savedKnown,fun e he => h.known e ?_,⟨hsame,hstack,hpending⟩,
    trivial⟩
  · show (logEntry log::rs).Nodup
    have hnodup := List.nodup_reverse.mpr h.nodup
    rwa [← hsame,hstack] at hnodup
  · refine he.imp_right fun he => ?_
    rcases List.mem_append.mp he with he | he
    · rcases List.mem_cons.mp he with he | he
      · exact List.mem_append_right _ (List.mem_singleton.mpr he)
      · exact List.mem_append_left _ he
    · cases he

theorem Running.pushNewLog {log old : String} (h : Running new v p)
    (hp : p.phase = .saved log) (ha : p.activeWriter = some old) :
    Running new v {p with
      readers := logEntry old::p.readers
      activeWriter := some log
      pendingWriters := p.pendingWriters++[old]
      writeCount := 0
      phase := .rotated} := by
  rcases p with ⟨m,seq,rs,a,pw,wc,ph⟩
  obtain rfl : ph = .saved log := hp
  obtain rfl : a = some old := ha
  obtain ⟨hsame,hstack,hpending⟩ := h.inPhase
  refine ⟨h.size,h.seq,h.nodup,?_,h.savedKnown,fun e he => h.known e ?_,
    ⟨⟨hsame,hstack,?_⟩,old,rs,rfl⟩,trivial⟩
  · show (logEntry log::logEntry old::rs).Nodup
    have hnodup := List.nodup_reverse.mpr h.nodup
    rwa [← hsame,hstack] at hnodup
  · refine he.imp_right fun he => ?_
    rcases List.mem_append.mp he with he | he
    · rcases List.mem_cons.mp he with he | he
      · exact List.mem_append_right _ (List.mem_singleton.mpr he)
      · exact List.mem_append_left _ he
    · cases he
  · show pw++[old] = ((logEntry old::rs).reverse.filter fun e => e.type = .writeLog).map (·.name)
    rw [show pw = _ from hpending]
    simp [logEntry]

/-- A new sequence number is above all that are in use. -/
theorem Inv.createFile (h : Inv new ws v) (hp : v.process = some p)
    (hphase : p.phase = .rotated) (hnamed : v.named+2 < 2^64) (chosen : List DataFileEntry) :
    Inv new ws {v with
      process := some {p.generateNextTableName.2 with
        phase := .named chosen p.pendingWriters p.generateNextTableName.1}
      named := v.named+1} := by
  have hrun := h.running p hp
  rcases p with ⟨m,seq,rs,a,pw,wc,ph⟩
  obtain rfl : ph = .rotated := hphase
  obtain ⟨hsettled,hlast⟩ := hrun.inPhase
  have hle : seq ≤ v.named+1 := hrun.seq
  have hseq : (seq+1)%2^64 = seq+1 := Nat.mod_eq_of_lt (by omega)
  refine ⟨h.size,h.bounded,h.nodup,h.ordered,
    fun e he => ⟨(h.known e he).1.mono (Nat.le_succ _),(h.known e he).2⟩,h.content,
    fun p' hp' => ?_⟩
  cases hp'
  have hstack : ∀ e ∈ Process.stack ⟨m,seq,rs,a,pw,wc,.rotated⟩,
      WellNamed seq e ∧ (v.files e).isSome := fun e he =>
    hrun.known e (.inr (List.mem_append_left _ he))
  refine ⟨hrun.size,?_,hrun.nodup,hrun.stack,fun e he => ?_,fun e he => ?_,
    ⟨⟨hsettled.same,hsettled.stacked,hsettled.pending⟩,hlast,rfl,fun htable => ?_,?_⟩,trivial⟩
  · show (seq+1)%2^64 ≤ v.named+1+1
    omega
  · show WellNamed ((seq+1)%2^64) e
    rw [hseq]
    exact (hrun.savedKnown e he).mono (Nat.le_succ _)
  · show WellNamed ((seq+1)%2^64) e ∧ _
    rw [hseq]
    have hknown := hrun.known e he
    exact ⟨hknown.1.mono (Nat.le_succ _),hknown.2⟩
  · exact not_wellNamed_next seq (hstack _ htable).1
  · show WellNamed ((seq+1)%2^64) (tableEntry (tableName seq))
    rw [hseq]
    exact wellNamed_table (Nat.lt_succ_self seq)

/-- The logs of an ordered list stand in front. -/
theorem LogsFirst.filter_append {l : List DataFileEntry} (h : LogsFirst l) :
    l = l.filter (fun e => e.type = .writeLog)++l.filter (fun e => ¬e.type = .writeLog) := by
  induction l with
  | nil => rfl
  | cons e l ih =>
    obtain ⟨he,hl⟩ := List.pairwise_cons.mp h
    by_cases hlog : e.type = .writeLog
    · rw [List.filter_cons_of_pos (by simpa using hlog),List.filter_cons_of_neg (by simpa using hlog),
        List.cons_append,← ih hl]
    · have hnone : l.filter (fun e => e.type = .writeLog) = [] :=
        List.filter_eq_nil_iff.mpr fun e' he' hlog' => hlog (he e' he' (by simpa using hlog'))
      rw [List.filter_cons_of_neg (by simpa using hlog),List.filter_cons_of_pos (by simpa using hlog),
        hnone,List.nil_append]
      congr 1
      rw [hnone,List.nil_append] at ih
      exact ih hl

theorem Process.PendingLogs.entries (h : p.PendingLogs) :
    (p.pendingWriters.map logEntry).reverse = p.readers.filter fun e => e.type = .writeLog := by
  rw [h,List.map_map,← List.map_reverse,← List.filter_reverse,List.reverse_reverse]
  refine (List.map_congr_left fun e he => ?_).trans (List.map_id _)
  obtain ⟨type,name⟩ := e
  obtain rfl : type = .writeLog := by simpa using (List.mem_filter.mp he).2
  rfl

/-- The compacted table holds what the readers show, with all blocks of the logs. -/
theorem compactedBlocks_covers (chosen : List DataFileEntry) (hpending : p.PendingLogs)
    (hordered : LogsFirst p.readers) :
    (∀ x b, v.compactedBlocks p chosen p.pendingWriters x = some b →
      newest v.data p.readers x = some b) ∧
    ∀ e ∈ p.readers, e.type = .writeLog → ∀ x, v.data e x ≠ none →
      v.compactedBlocks p chosen p.pendingWriters x ≠ none := by
  constructor
  · intro x b hb
    rw [compactedBlocks,Compaction.compactedBlocks,hpending.entries] at hb
    rcases Option.or_eq_some_iff.mp hb with hlog | ⟨_,hchosen⟩
    · rw [hordered.filter_append,newest_append,hlog,Option.some_or]
    · exact Compaction.newest_of_chosenBlocks hchosen
  · intro e he hlog x hx
    rw [compactedBlocks,Compaction.compactedBlocks,hpending.entries,ne_eq,Option.or_eq_none_iff,
      newest_eq_none]
    rintro ⟨hnone,_⟩
    exact hx (hnone e (List.mem_filter.mpr ⟨he,by simpa using hlog⟩))

/-- The table is no file that is listed or open. -/
theorem Inv.closeTable (h : Inv new ws v) (hp : v.process = some p)
    {chosen : List DataFileEntry} {logs : List String} {table : String}
    (hphase : p.phase = .named chosen logs table) :
    Inv new ws (v.put (tableEntry table) (some (.table (v.compactedBlocks p chosen logs)))
      {p with phase := .built logs table}) := by
  have hrun := h.running p hp
  have hin := hrun.inPhase
  rw [Process.InPhase,hphase] at hin
  obtain ⟨hsettled,hlast,rfl,htable,hname⟩ := hin
  have hopen : p.openFiles = p.stack++[] := by
    simp only [Process.openFiles,Process.phaseFiles,hphase]
  have hordered : LogsFirst p.readers := by
    have := h.ordered
    rw [hsettled.stacked] at this
    exact this.sublist (List.sublist_append_right _ _)
  obtain ⟨hshown,hlogs⟩ := compactedBlocks_covers (v := v) chosen hsettled.pending hordered
  have hsaved : ∀ e ∈ v.savedFiles, e ≠ tableEntry table := by
    rintro e he rfl
    rw [← List.mem_reverse,hsettled.stacked] at he
    exact htable he
  have hstack : ∀ e ∈ p.stack, e ≠ tableEntry table := by
    rintro e he rfl
    exact htable he
  have hreaders : ∀ e ∈ p.readers, e ≠ tableEntry table := fun e he =>
    hstack e (List.mem_append_right _ he)
  refine ⟨h.size,fun e x hx => ?_,h.nodup,h.ordered,fun e he => ?_,fun x => ?_,fun p' hp' => ?_⟩
  · by_cases he : e = tableEntry table
    · rw [he,data_put_self]
      refine Option.eq_none_iff_forall_ne_some.mpr fun b hb => ?_
      have hnone : newest v.data p.readers x = none :=
        newest_eq_none.mpr fun e _ => h.bounded e x hx
      rw [hshown x b hb] at hnone
      cases hnone
    · rw [data_put_of_ne he]
      exact h.bounded e x hx
  · rw [files_put_of_ne (hsaved e he)]
    exact h.known e he
  · refine (newest_congr fun e he => ?_).trans (h.content x)
    rw [data_put_of_ne (hsaved e (List.mem_reverse.mp he))]
  · cases hp'
    refine ⟨hrun.size,hrun.seq,hrun.nodup,hrun.stack,hrun.savedKnown,fun e he => ?_,
      ⟨⟨hsettled.same,hsettled.stacked,hsettled.pending⟩,hlast,rfl,htable⟩,?_,
      fun e he hlog x hx => ?_⟩
    · have hold : ∀ e, e ∈ p.metadata.dataFiles ∨ e ∈ p.openFiles → e ≠ tableEntry table →
          WellNamed p.nextSeq e ∧ ((v.put (tableEntry table)
            (some (.table (v.compactedBlocks p chosen p.pendingWriters)))
            {p with phase := .built p.pendingWriters table}).files e).isSome := by
        intro e he hne
        rw [files_put_of_ne hne]
        exact hrun.known e he
      rcases he with he | he
      · refine hold e (.inl he) (hsaved e ?_)
        rw [hsettled.same]
        exact he
      · rcases List.mem_append.mp he with he | he
        · exact hold e (.inr (hopen ▸ List.mem_append_left _ he)) (hstack e he)
        · obtain rfl : e = tableEntry table := List.mem_singleton.mp he
          refine ⟨hname,?_⟩
          simp [put]
    · refine Shows.singleton.mpr fun x b hb => ?_
      rw [data_put_self] at hb
      refine (newest_congr fun e he => ?_).trans (hshown x b hb)
      rw [data_put_of_ne (hreaders e he)]
    · rw [data_put_self]
      rw [data_put_of_ne (hreaders e he)] at hx
      exact hlogs e he hlog x hx

theorem Running.pushCompactedReader {logs : List String} {table : String}
    (h : Running new v p) (hp : p.phase = .built logs table) :
    Running new v {p with
      readers := tableEntry table::p.readers
      pendingWriters := logs.foldl List.erase p.pendingWriters
      phase := .replaced logs table} := by
  rcases p with ⟨m,seq,rs,a,pw,wc,ph⟩
  obtain rfl : ph = .built logs table := hp
  obtain ⟨hsettled,⟨last,rest,hrs⟩,hlogs,htable⟩ := h.inPhase
  obtain rfl : logs = pw := hlogs
  obtain rfl : rs = logEntry last::rest := hrs
  have hcovers : Covers v.data (tableEntry table) (logEntry last::rest) := h.kept
  refine ⟨h.size,h.seq,h.nodup,?_,h.savedKnown,fun e he => h.known e ?_,
    ⟨last,rest,rfl,hsettled.same,hsettled.stacked,?_,Transition.foldl_erase_self logs⟩,?_⟩
  · exact List.nodup_middle.mpr (List.nodup_cons.mpr ⟨htable,h.stack⟩)
  · refine he.imp_right fun he => ?_
    rcases List.mem_append.mp he with he | he
    · rcases List.mem_append.mp he with he | he
      · exact List.mem_append_left _ (List.mem_append_left _ he)
      · rcases List.mem_cons.mp he with he | he
        · exact List.mem_append_right _ (List.mem_singleton.mpr he)
        · exact List.mem_append_left _ (List.mem_append_right _ he)
    · cases he
  · rw [show logs = _ from hsettled.pending]
    simp [logEntry]
  · intro table' old hold
    cases hold
    exact hcovers

/-- The entry of the last log is replaced. -/
theorem Running.compactWriteLog {logs : List String} {table last : String}
    (h : Running new v p) (hp : p.phase = .replaced logs table)
    (hlast : logs.getLast? = some last) : Running new v {p with
      metadata := p.metadata.compactWriteLog last table, phase := .compacted} := by
  rcases p with ⟨m,seq,rs,a,pw,wc,ph⟩
  obtain rfl : ph = .replaced logs table := hp
  obtain ⟨last',rest,hrs,hsame,hstack,hlast',hpw⟩ := h.inPhase
  obtain rfl : last = last' := Option.some.inj (hlast.symm.trans hlast')
  obtain rfl : rs = tableEntry table::logEntry last::rest := hrs
  have hentries := Metadata.compactEntries_reverse table h.nodup (hsame ▸ hstack)
  refine ⟨h.size,h.seq,?_,h.stack,h.savedKnown,fun e he => ?_,
    ⟨table,last,rest,rfl,hstack,hentries,hpw⟩,h.kept⟩
  · refine List.nodup_reverse.mp ?_
    show (Metadata.compactEntries last table m.dataFiles).reverse.Nodup
    rw [hentries]
    refine h.stack.sublist (List.Sublist.append_left ?_ _)
    exact List.Sublist.cons_cons _ (List.sublist_cons_self _ _)
  · rcases he with he | he
    · refine h.known e (.inr (List.mem_append_left _ ?_))
      rw [← List.mem_reverse] at he
      have he' : e ∈ (Metadata.compactEntries last table m.dataFiles).reverse := he
      rw [hentries,List.mem_append,List.mem_cons] at he'
      rw [Process.stack,List.mem_append,List.mem_cons]
      exact he'.imp_right (Or.imp_right (List.mem_cons_of_mem _))
    · exact h.known e (.inr he)

theorem dead_of_not_isLive (hbounded : ∀ e x, new.numBlocks ≤ x → v.data e x = none)
    (hsize : new.SameSize p.metadata) {e : DataFileEntry} (h : v.isLive p e = false) (x : ℕ) :
    owner v.data p.readers x ≠ some e := by
  intro hx
  rcases Nat.lt_or_ge x new.numBlocks with hlt | hge
  · rw [isLive,hsize.2,List.any_eq_false] at h
    exact h x (List.mem_range.mpr hlt) (by simpa using hx)
  · exact (of_owner hx).2 (hbounded e x hge)

theorem not_isLive_of_dead {e : DataFileEntry} (h : ∀ x, owner v.data p.readers x ≠ some e) :
    v.isLive p e = false := by
  rw [isLive,List.any_eq_false]
  intro x _
  simpa using h x

/-- A log under the table owns no block. -/
theorem Covers.dead_log {data : DataFileEntry → ℕ → Option β} {table e : DataFileEntry}
    {old : List DataFileEntry} (h : Covers data table old) (he : e ∈ old) (hne : e ≠ table)
    (hlog : e.type = .writeLog) (x : ℕ) : owner data (table::old) x ≠ some e := by
  intro hx
  have htable : (data table x).isSome :=
    Option.isSome_iff_ne_none.mpr (h.logs e he hlog x (of_owner hx).2)
  rw [owner_cons,Reader.overlay,if_pos htable] at hx
  exact hne (Option.some.inj hx).symm

theorem Running.liveBlocks {unused : List DataFileEntry} (h : Running new v p)
    (hbounded : ∀ e x, new.numBlocks ≤ x → v.data e x = none) (hp : p.phase = .compacted)
    (hperm : unused.Perm (p.readers.filter fun e => !v.isLive p e)) :
    Running new v {p with phase := .removing unused []} := by
  have hin := h.inPhase
  have hkept := h.kept
  have hopen : p.openFiles = p.stack++[] := by
    simp only [Process.openFiles,Process.phaseFiles,hp]
  rw [Process.InPhase,hp] at hin
  rw [Process.Kept,hp] at hkept
  obtain ⟨table,last,rest,hrs,hsaved,hlist,hpw⟩ := hin
  have hcovers : Covers v.data (tableEntry table) (logEntry last::rest) := hkept _ _ hrs
  have hnodup : p.readers.Nodup := h.stack.sublist (List.sublist_append_right _ _)
  have hmem : ∀ e, e ∈ unused ↔ e ∈ p.readers ∧ v.isLive p e = false := by
    intro e
    rw [hperm.mem_iff,List.mem_filter,Bool.not_eq_true']
  have hlogs : ∀ e ∈ p.readers, e.type = .writeLog → e ∈ unused := by
    intro e he hlog
    refine (hmem e).mpr ⟨he,not_isLive_of_dead fun x => ?_⟩
    have hne : e ≠ tableEntry table := by
      rintro rfl
      cases hlog
    rw [hrs] at he ⊢
    exact hcovers.dead_log ((List.mem_cons.mp he).resolve_left hne) hne hlog x
  have hrest : p.readers.filter (· ≠ logEntry last) = tableEntry table::rest := by
    rw [hrs] at hnodup ⊢
    have hlast : logEntry last ∉ rest := (List.nodup_cons.mp (List.nodup_cons.mp hnodup).2).1
    rw [List.filter_cons_of_pos (by simpa using (logEntry_ne_tableEntry last table).symm),
      List.filter_cons_of_neg (by simp),List.filter_eq_self.mpr]
    intro e he
    refine decide_eq_true ?_
    rintro rfl
    exact hlast he
  refine ⟨h.size,h.seq,h.nodup,h.stack,h.savedKnown,fun e he => h.known e ?_,
    ⟨hpw,hperm.nodup_iff.mpr (hnodup.filter _),List.nodup_nil,fun e he => ((hmem e).mp he).1,
      fun e he => (by cases he),hlogs,last,.inl (hlogs _ ?_ rfl),?_⟩,
    fun e he => dead_of_not_isLive hbounded h.size ((hmem e).mp he).2,logEntry last::rest,hsaved,
    fun x => ?_⟩
  · exact he.imp_right fun he => hopen ▸ he
  · rw [hrs]
    simp
  · rw [hrest]
    exact hlist
  · show _ = newest v.data p.readers x
    rw [hrs]
    exact (hcovers.shown x).symm

/-- A reader without a live block leaves the map and the list. -/
theorem Running.removeUnusedReader {e : DataFileEntry} {todo removed : List DataFileEntry}
    (h : Running new v p) (hp : p.phase = .removing (e::todo) removed) :
    Running new v {p with
      metadata := p.metadata.removeDataFile e
      readers := p.readers.erase e
      phase := .removing todo (removed++[e])} := by
  rcases p with ⟨m,seq,rs,a,pw,wc,ph⟩
  obtain rfl : ph = .removing (e::todo) removed := hp
  obtain ⟨hpw,htodo,hremoved,hsub,hdisjoint,hlogs,last,hlast,hlist⟩ := h.inPhase
  obtain ⟨hdead,old,hold,hnewest⟩ := h.kept
  have he : e ∈ rs := hsub e List.mem_cons_self
  have hnodup : rs.Nodup := h.stack.sublist (List.sublist_append_right _ _)
  set active : List DataFileEntry := a.toList.map logEntry with hactive
  have hstack : (active++rs).Nodup := h.stack
  have heactive : e ∉ active := fun ha => (List.nodup_append.mp hstack).2.2 e ha e he rfl
  have howner : ∀ x, owner v.data (rs.erase e) x = owner v.data rs x := fun x =>
    owner_erase (hdead e List.mem_cons_self x)
  have hfiles : (m.removeDataFile e).dataFiles = m.dataFiles.erase e := m.removeDataFile_dataFiles e
  have hmem : ∀ e' ∈ active++rs.erase e, e' ∈ active++rs := fun e' he' =>
    (List.Sublist.append_left List.erase_sublist active).subset he'
  refine ⟨h.size.removeDataFile e,h.seq,?_,?_,h.savedKnown,fun e' he' => ?_,
    ⟨hpw,(List.nodup_cons.mp htodo).2,?_,fun e' he' => ?_,fun e' he' => ?_,fun e' he' hlog => ?_,
      last,?_,?_⟩,fun e' he' x => ?_,old,hold,fun x => ?_⟩
  · show (m.removeDataFile e).dataFiles.Nodup
    rw [hfiles]
    exact h.nodup.erase e
  · exact hstack.sublist (List.Sublist.append_left List.erase_sublist active)
  · refine h.known e' ?_
    rcases he' with he' | he'
    · left
      have he' : e' ∈ (m.removeDataFile e).dataFiles := he'
      rw [hfiles] at he'
      exact List.mem_of_mem_erase he'
    · right
      rcases List.mem_append.mp he' with he' | he'
      · exact List.mem_append_left _ (hmem e' he')
      · rcases List.mem_append.mp he' with he' | he'
        · exact List.mem_append_right _ he'
        · obtain rfl : e' = e := List.mem_singleton.mp he'
          exact List.mem_append_left _ (List.mem_append_right _ he)
  · refine List.nodup_append.mpr ⟨hremoved,List.nodup_singleton e,fun e' he' e'' he'' => ?_⟩
    rintro rfl
    obtain rfl : e' = e := List.mem_singleton.mp he''
    exact hdisjoint e' he' (List.mem_append_right _ he)
  · show e' ∈ rs.erase e
    refine (hnodup.mem_erase_iff).mpr ⟨?_,hsub e' (List.mem_cons_of_mem e he')⟩
    rintro rfl
    exact (List.nodup_cons.mp htodo).1 he'
  · rcases List.mem_append.mp he' with he' | he'
    · exact fun hin => hdisjoint e' he' (hmem e' hin)
    · obtain rfl : e' = e := List.mem_singleton.mp he'
      intro hin
      rcases List.mem_append.mp hin with hin | hin
      · exact heactive hin
      · exact (hnodup.mem_erase_iff.mp hin).1 rfl
  · have he' : e' ∈ rs.erase e := he'
    obtain ⟨hne,hin⟩ := hnodup.mem_erase_iff.mp he'
    exact (List.mem_cons.mp (hlogs e' hin hlog)).resolve_left hne
  · rcases hlast with hlast | hlast
    · rcases List.mem_cons.mp hlast with hlast | hlast
      · exact .inr (List.mem_append_right _ (List.mem_singleton.mpr hlast))
      · exact .inl hlast
    · exact .inr (List.mem_append_left _ hlast)
  · show (m.removeDataFile e).dataFiles.reverse = active++(rs.erase e).filter (· ≠ logEntry last)
    have hlist : m.dataFiles.reverse = active++rs.filter (· ≠ logEntry last) := hlist
    have hself : active.filter (fun e' => e' != e) = active := by
      refine List.filter_eq_self.mpr fun e' he' => ?_
      rw [bne_iff_ne]
      rintro rfl
      exact heactive he'
    rw [hfiles,List.Nodup.erase_eq_filter h.nodup,← List.filter_reverse,hlist,List.filter_append,hself,
      hnodup.erase_eq_filter,List.filter_comm]
  · show owner v.data (rs.erase e) x ≠ some e'
    rw [howner]
    exact hdead e' (List.mem_cons_of_mem e he') x
  · show newest v.data old x = newest v.data (rs.erase e) x
    rw [hnewest,← owner_bind,← owner_bind]
    exact congrArg (Option.bind · _) (howner x).symm

theorem type_of_mem_active {e : DataFileEntry} (h : e ∈ p.active) : e.type = .writeLog := by
  obtain ⟨log,_,rfl⟩ := List.mem_map.mp h
  rfl

/-- The list without the compacted logs is saved; what it names shows the same blocks. -/
theorem Inv.saveUnused (h : Inv new ws v) (hp : v.process = some p)
    {removed : List DataFileEntry} (hphase : p.phase = .removing [] removed) :
    Inv new ws {v with
      saved := if removed = [] then v.saved else some p.metadata
      process := some {p with phase := .deleting removed}} := by
  have hrun := h.running p hp
  rcases p with ⟨m,seq,rs,a,pw,wc,ph⟩
  obtain rfl : ph = .removing [] removed := hphase
  obtain ⟨hpw,_,hremoved,_,hdisjoint,hlogs,last,hlast,hlist⟩ := hrun.inPhase
  obtain ⟨_,old,hold,hnewest⟩ := hrun.kept
  have hlogs : ∀ e ∈ rs, e.type ≠ .writeLog := fun e he hlog => by cases hlogs e he hlog
  have hne : removed ≠ [] := by
    rintro rfl
    rcases hlast with hlast | hlast <;> cases hlast
  have hstack : m.dataFiles.reverse =
      Process.stack ⟨m,seq,rs,a,pw,wc,.removing [] removed⟩ := by
    refine hlist.trans (congrArg _ (List.filter_eq_self.mpr fun e he => decide_eq_true ?_))
    rintro rfl
    exact hlogs _ he rfl
  have hknown : ∀ e ∈ m.dataFiles, WellNamed seq e ∧ (v.files e).isSome := fun e he =>
    hrun.known e (.inl he)
  rw [if_neg hne]
  refine ⟨?_,h.bounded,hrun.nodup,?_,fun e he => ?_,fun x => ?_,fun p' hp' => ?_⟩
  · rintro m' hm'
    cases hm'
    exact hrun.size
  · show LogsFirst m.dataFiles.reverse
    rw [hstack]
    refine List.pairwise_append.mpr ⟨?_,?_,fun e he e' he' hlog => absurd hlog (hlogs e' he')⟩
    · exact List.pairwise_of_forall_mem_list fun e he e' _ _ => type_of_mem_active he
    · exact List.pairwise_of_forall_mem_list fun e _ e' he' hlog => absurd hlog (hlogs e' he')
  · exact ⟨(hknown e he).1.mono hrun.seq,(hknown e he).2⟩
  · show newest v.data m.dataFiles.reverse x = _
    rw [hstack,Process.stack,newest_append,← hnewest,← newest_append]
    exact (congrArg (newest v.data · x) hold).symm.trans (h.content x)
  · cases hp'
    refine ⟨hrun.size,hrun.seq,hrun.nodup,hrun.stack,fun e he => (hknown e he).1,hrun.known,
      ⟨⟨rfl,hstack,?_⟩,hremoved,hdisjoint⟩,trivial⟩
    show pw = _
    rw [show pw = [] from hpw,List.filter_eq_nil_iff.mpr]
    · rfl
    · intro e he
      simpa using hlogs e (List.mem_reverse.mp he)

/-- A file is deleted that is neither listed nor open. -/
theorem Inv.deleteFile (h : Inv new ws v) {e : DataFileEntry} (he : e ∉ v.savedFiles)
    {p' : Process} (hp' : Running new (v.put e none p') p') :
    Inv new ws (v.put e none p') := by
  have hne : ∀ e' ∈ v.savedFiles, e' ≠ e := by
    rintro e' he' rfl
    exact he he'
  refine ⟨h.size,fun e' x hx => ?_,h.nodup,h.ordered,fun e' he' => ?_,fun x => ?_,fun q hq => ?_⟩
  · by_cases heq : e' = e
    · rw [heq,data_put_self]
      rfl
    · rw [data_put_of_ne heq]
      exact h.bounded e' x hx
  · rw [files_put_of_ne (hne e' he')]
    exact h.known e' he'
  · refine (newest_congr fun e' he' => ?_).trans (h.content x)
    rw [data_put_of_ne (hne e' (List.mem_reverse.mp he'))]
  · cases hq
    exact hp'

theorem Inv.removeFile (h : Inv new ws v) (hp : v.process = some p) {e : DataFileEntry}
    {todo : List DataFileEntry} (hphase : p.phase = .deleting (e::todo)) :
    Inv new ws (v.put e none {p with phase := .deleting todo}) := by
  have hrun := h.running p hp
  rcases p with ⟨m,seq,rs,a,pw,wc,ph⟩
  obtain rfl : ph = .deleting (e::todo) := hphase
  obtain ⟨hsettled,htodo,hdisjoint⟩ := hrun.inPhase
  obtain ⟨he,htodo⟩ := List.nodup_cons.mp htodo
  have hstack := hdisjoint e List.mem_cons_self
  have hsaved : e ∉ v.savedFiles := by
    rw [← List.mem_reverse,hsettled.stacked]
    exact hstack
  refine h.deleteFile hsaved ⟨hrun.size,hrun.seq,hrun.nodup,hrun.stack,hrun.savedKnown,
    fun e' he' => ?_,⟨⟨hsettled.same,hsettled.stacked,hsettled.pending⟩,htodo,fun e' he' =>
      hdisjoint e' (List.mem_cons_of_mem e he')⟩,trivial⟩
  have hne : e' ≠ e := by
    rintro rfl
    rcases he' with he' | he'
    · exact hsaved (hsettled.same ▸ he')
    · rcases List.mem_append.mp he' with he' | he'
      · exact hstack he'
      · exact he he'
  rw [files_put_of_ne hne]
  refine hrun.known e' (he'.imp_right fun he' => ?_)
  rcases List.mem_append.mp he' with he' | he'
  · exact List.mem_append_left _ he'
  · exact List.mem_append_right _ (List.mem_cons_of_mem e he')

theorem Running.compactionDone (h : Running new v p) (hp : p.phase = .deleting []) :
    Running new v {p with phase := .idle} := by
  rcases p with ⟨m,seq,rs,a,pw,wc,ph⟩
  obtain rfl : ph = .deleting [] := hp
  obtain ⟨hsettled,_⟩ := h.inPhase
  exact ⟨h.size,h.seq,h.nodup,h.stack,h.savedKnown,h.known,
    ⟨hsettled.same,hsettled.stacked,hsettled.pending⟩,trivial⟩

theorem data_of_mem_emptyLogs {log : String} (h : log ∈ v.emptyLogs p) (x : ℕ) :
    v.data (logEntry log) x = none := by
  have hfile := (List.mem_filter.mp h).2
  rw [data]
  split at hfile
  · next hf =>
    rw [hf]
    rfl
  · cases hfile

theorem Running.closeWriters (h : Running new v p) (hp : p.phase = .idle) :
    Running new v {p with
      activeWriter := none
      pendingWriters := p.pendingWriters++p.activeWriter.toList
      writeCount := 0
      phase := .closed (v.emptyLogs p)} := by
  have hopen : p.openFiles = p.stack++[] := by
    simp only [Process.openFiles,Process.phaseFiles,hp]
  have hsettled : p.Settled v.savedFiles := by
    have hin := h.inPhase
    rwa [Process.InPhase,hp] at hin
  have hlogs : (p.pendingWriters++p.activeWriter.toList).Nodup := by
    refine List.Nodup.of_map logEntry ?_
    rw [List.map_append,← List.reverse_reverse (p.pendingWriters.map logEntry),
      hsettled.pending.entries,List.nodup_append_comm]
    refine (List.Perm.nodup_iff (List.Perm.append_left _ (List.reverse_perm _))).mpr ?_
    exact h.stack.sublist (List.Sublist.append_left List.filter_sublist _)
  refine ⟨h.size,h.seq,h.nodup,h.stack.sublist (List.sublist_append_right _ _),h.savedKnown,
    fun e he => h.known e (he.imp_right fun he => ?_),⟨rfl,hsettled.same,hlogs.filter _⟩,
    fun log hlog x => data_of_mem_emptyLogs hlog x⟩
  rw [hopen]
  exact List.mem_append_left _ (List.mem_append_right _ (List.mem_of_mem_filter he))

theorem foldl_removeWriteLog {m : Metadata} (h : m.dataFiles.Nodup) (logs : List String) :
    (logs.foldl Metadata.removeWriteLog m).dataFiles =
        m.dataFiles.filter (fun e => e ∉ logs.map logEntry) ∧
      m.SameSize (logs.foldl Metadata.removeWriteLog m) := by
  induction logs generalizing m with
  | nil => exact ⟨by simp,rfl,rfl⟩
  | cons log logs ih =>
    have hone : (m.removeWriteLog log).dataFiles = m.dataFiles.filter (· ≠ logEntry log) := by
      rw [m.removeWriteLog_dataFiles,h.erase_eq_filter]
      refine List.filter_congr fun e _ => ?_
      rw [Bool.eq_iff_iff,bne_iff_ne,decide_eq_true_iff]
      rfl
    obtain ⟨hfiles,hsize⟩ := ih (m := m.removeWriteLog log) (hone ▸ h.filter _)
    refine ⟨?_,hsize⟩
    rw [List.foldl_cons,hfiles,hone,List.filter_filter]
    refine List.filter_congr fun e _ => ?_
    rw [Bool.eq_iff_iff]
    simp only [List.map_cons,List.mem_cons,Bool.and_eq_true,decide_eq_true_iff,not_or,and_comm]

/-- Logs without a block leave the list. -/
theorem Inv.saveEmpty (h : Inv new ws v) (hp : v.process = some p) {logs : List String}
    (hphase : p.phase = .closed logs) : Inv new ws {v with
      saved := if logs = [] then v.saved else some (logs.foldl Metadata.removeWriteLog p.metadata)
      process := some {p with
        metadata := logs.foldl Metadata.removeWriteLog p.metadata, phase := .cleaning logs}} := by
  have hrun := h.running p hp
  rcases p with ⟨m,seq,rs,a,pw,wc,ph⟩
  obtain rfl : ph = .closed logs := hphase
  obtain ⟨hactive,hsame,hlogs⟩ := hrun.inPhase
  have hempty : ∀ log ∈ logs, ∀ x, v.data (logEntry log) x = none := hrun.kept
  obtain ⟨hfiles,hsize⟩ := foldl_removeWriteLog (m := m) hrun.nodup logs
  set m' := logs.foldl Metadata.removeWriteLog m with hm'
  set v' : Volume β := {v with
    saved := if logs = [] then v.saved else some m'
    process := some ⟨m',seq,rs,a,pw,wc,.cleaning logs⟩} with hv'
  have hsaved : v'.savedFiles = m'.dataFiles := by
    rw [hv',savedFiles]
    by_cases hnil : logs = []
    · subst hnil
      exact hsame
    · simp only [if_neg hnil]
      rfl
  have hsub : m'.dataFiles.Sublist v.savedFiles := by
    rw [hfiles,hsame]
    exact List.filter_sublist
  refine ⟨?_,h.bounded,?_,?_,fun e he => ?_,fun x => ?_,fun p' hp' => ?_⟩
  · intro m'' hm''
    by_cases hnil : logs = []
    · exact h.size m'' (by simpa only [hv',if_pos hnil] using hm'')
    · obtain rfl : m' = m'' := by simpa only [hv',if_neg hnil,Option.some.injEq] using hm''
      exact ⟨hsize.1.trans hrun.size.1,hsize.2.trans hrun.size.2⟩
  · rw [hsaved]
    exact h.nodup.sublist hsub
  · rw [hsaved]
    exact h.ordered.sublist (List.reverse_sublist.mpr hsub)
  · rw [hsaved] at he
    exact h.known e (hsub.subset he)
  · rw [hsaved,hfiles,← List.filter_reverse]
    refine (newest_filter fun e _ he => ?_).trans ?_
    · obtain ⟨log,hlog,rfl⟩ := List.mem_map.mp (not_not.mp (of_decide_eq_false he))
      exact hempty log hlog x
    · exact (congrArg (fun l => newest v.data (List.reverse l) x) hsame).symm.trans (h.content x)
  · cases hp'
    refine ⟨⟨hsize.1.trans hrun.size.1,hsize.2.trans hrun.size.2⟩,hrun.seq,?_,hrun.stack,
      fun e he => ?_,fun e he => ?_,⟨hactive,hsaved,hlogs,fun log hlog hin => ?_⟩,trivial⟩
    · exact h.nodup.sublist hsub
    · rw [hsaved] at he
      exact hrun.savedKnown e (hsub.subset he)
    · refine hrun.known e (he.imp_left fun he => ?_)
      rw [← hsame]
      exact hsub.subset he
    · rw [hsaved,hfiles,List.mem_filter] at hin
      exact of_decide_eq_true hin.2 (List.mem_map_of_mem hlog)

theorem Inv.removeLog (h : Inv new ws v) (hp : v.process = some p) {log : String}
    {todo : List String} (hphase : p.phase = .cleaning (log::todo)) :
    Inv new ws (v.put (logEntry log) none {p with phase := .cleaning todo}) := by
  have hrun := h.running p hp
  rcases p with ⟨m,seq,rs,a,pw,wc,ph⟩
  obtain rfl : ph = .cleaning (log::todo) := hphase
  obtain ⟨hactive,hsame,hlogs,hdisjoint⟩ := hrun.inPhase
  have hsaved := hdisjoint log List.mem_cons_self
  refine h.deleteFile hsaved ⟨hrun.size,hrun.seq,hrun.nodup,hrun.stack,hrun.savedKnown,
    fun e he => ?_,⟨hactive,hsame,(List.nodup_cons.mp hlogs).2,fun log' hlog' =>
      hdisjoint log' (List.mem_cons_of_mem log hlog')⟩,trivial⟩
  have hne : e ≠ logEntry log := by
    rintro rfl
    rcases he with he | he
    · exact hsaved (hsame ▸ he)
    · cases of_decide_eq_true (List.mem_filter.mp he).2
  rw [files_put_of_ne hne]
  exact hrun.known e he

theorem loadDataFiles_eq {es : List DataFileEntry} (h : ∀ e ∈ es, (v.files e).isSome)
    (p : Process) : v.loadDataFiles es p = some (es.foldl Process.pushDataFile p) := by
  induction es generalizing p with
  | nil => rfl
  | cons e es ih =>
    rw [loadDataFiles,if_pos (h e List.mem_cons_self),List.foldl_cons]
    exact ih (fun e' he' => h e' (List.mem_cons_of_mem e he')) _

theorem foldl_pushDataFile (es : List DataFileEntry) (p : Process) :
    ∃ seq, es.foldl Process.pushDataFile p = {p with
      nextSeq := seq
      readers := es.reverse++p.readers
      pendingWriters := p.pendingWriters++(es.filter fun e => e.type = .writeLog).map (·.name)} := by
  induction es generalizing p with
  | nil => exact ⟨p.nextSeq,by simp⟩
  | cons e es ih =>
    obtain ⟨seq,hfold⟩ := ih (p.pushDataFile e)
    refine ⟨seq,?_⟩
    rw [List.foldl_cons,hfold]
    rcases e with ⟨_ | _,name⟩
    · simp [Process.pushDataFile]
    · simp only [Process.pushDataFile]
      split <;> simp

/-- The next sequence number lies above those of the loaded tables. -/
theorem foldl_nextSeq {es : List DataFileEntry} {bound : ℕ} (hbound : bound < 2^64)
    (hes : ∀ e ∈ es, WellNamed bound e) (hp : p.nextSeq ≤ bound) :
    p.nextSeq ≤ (es.foldl Process.pushDataFile p).nextSeq ∧
      (es.foldl Process.pushDataFile p).nextSeq ≤ bound ∧
      ∀ e ∈ es, WellNamed (es.foldl Process.pushDataFile p).nextSeq e := by
  induction es generalizing p with
  | nil => exact ⟨le_refl _,hp,fun e he => by cases he⟩
  | cons e es ih =>
    have hone : p.nextSeq ≤ (p.pushDataFile e).nextSeq ∧ (p.pushDataFile e).nextSeq ≤ bound ∧
        WellNamed (p.pushDataFile e).nextSeq e := by
      have he := hes e List.mem_cons_self
      rcases e with ⟨_ | _,name⟩
      · exact ⟨le_refl _,hp,he⟩
      · obtain ⟨seq,hseq,hname⟩ := he
        obtain rfl : name = tableName seq := hname
        simp only [Process.pushDataFile,tableSeq_tableName (show seq < 2^64 by omega)]
        split_ifs with hle
        · rw [Nat.mod_eq_of_lt (by omega)]
          exact ⟨by omega,by omega,wellNamed_table (Nat.lt_succ_self seq)⟩
        · exact ⟨le_refl _,hp,wellNamed_table (by omega)⟩
    obtain ⟨hle,hge,hnamed⟩ := ih (fun e' he' => hes e' (List.mem_cons_of_mem e he')) hone.2.1
    refine ⟨hone.1.trans hle,hge,fun e' he' => ?_⟩
    rcases List.mem_cons.mp he' with rfl | he'
    · exact hone.2.2.mono hle
    · exact hnamed e' he'

/-- No listed file is missing, and the readers come in the order of the list. -/
theorem Inv.openBlockFile (h : Inv new ws v) (hnamed : v.named+1 < 2^64)
    (hnew : new.dataFiles = []) :
    ∃ p, v.openBlockFile new = some p ∧ p.metadata.dataFiles = v.savedFiles ∧
      Running new v p := by
  have hfiles : (v.saved.getD new).dataFiles = v.savedFiles := by
    rw [savedFiles]
    cases v.saved with
    | none => exact hnew
    | some m => rfl
  have hblocks : new.SameSize (v.saved.getD new) := by
    cases hs : v.saved with
    | none => exact ⟨rfl,rfl⟩
    | some m => exact h.size m hs
  set m := v.saved.getD new with hm
  obtain ⟨seq,hfold⟩ := foldl_pushDataFile v.savedFiles ⟨m,1,[],none,[],0,.loaded⟩
  obtain ⟨_,hle,hseq⟩ := foldl_nextSeq hnamed (fun e he => (h.known e he).1)
    (show Process.nextSeq ⟨m,1,[],none,[],0,.loaded⟩ ≤ v.named+1 from Nat.le_add_left 1 _)
  rw [hfold] at hle hseq
  have hstack : Process.stack {(⟨m,1,[],none,[],0,.loaded⟩ : Process) with
      nextSeq := seq
      readers := v.savedFiles.reverse++[]
      pendingWriters := []++(v.savedFiles.filter fun e => e.type = .writeLog).map (·.name)} =
        v.savedFiles.reverse := by
    simp [Process.stack,Process.active]
  refine ⟨_,?_,hfiles,hblocks,hle,?_,?_,hseq,fun e he => ?_,⟨hfiles.symm,hstack.symm,?_⟩,trivial⟩
  · rw [Volume.openBlockFile,← hm,hfiles,loadDataFiles_eq fun e he => (h.known e he).2,hfold]
  · rw [hfiles]
    exact h.nodup
  · rw [hstack]
    exact List.nodup_reverse.mpr h.nodup
  · have he : e ∈ v.savedFiles := by
      rcases he with he | he
      · exact hfiles ▸ he
      · rw [Process.openFiles,hstack] at he
        simpa [Process.phaseFiles] using he
    exact ⟨hseq e he,(h.known e he).2⟩
  · simp [Process.PendingLogs]

theorem payload_of_nil {w : Write β} (h : w.blocks = []) (x : ℕ) : w.payload x = none := by
  simp [Write.payload,h]

theorem Write.InRange.payload_eq_none {numBlocks : ℕ} {w : Write β} (h : w.InRange numBlocks) {x : ℕ}
    (hx : numBlocks ≤ x) : w.payload x = none := by
  rw [Write.InRange] at h
  rw [Write.payload,if_pos (by omega),List.getElem?_eq_none (by omega)]

theorem newest_appendWrite (w : Write β) (writes : List (Write β)) (x : ℕ) :
    newest Write.payload (appendWrite w writes) x =
      (w.payload x).or (newest Write.payload writes x) := by
  rw [appendWrite]
  split_ifs with h
  · rw [payload_of_nil h,Option.none_or]
  · exact newest_cons _ _ _ _

/-- Nothing that holds a block stands over the active log. -/
theorem Running.exists_saved (h : Running new v p) {log : String}
    (ha : p.activeWriter = some log) : ∃ front back,
      v.savedFiles.reverse = front++logEntry log::back ∧ ∀ e ∈ front, ∀ x, v.data e x = none := by
  rcases p with ⟨m,seq,rs,a,pw,wc,ph⟩
  obtain rfl : a = some log := ha
  have hstack : v.savedFiles.reverse = logEntry log::rs → ∃ front back,
      v.savedFiles.reverse = front++logEntry log::back ∧ ∀ e ∈ front, ∀ x, v.data e x = none :=
    fun hrs => ⟨[],rs,hrs,fun e he => by cases he⟩
  have hin := h.inPhase
  cases ph with
  | loaded => exact hstack hin.stacked
  | created log' => exact hstack hin.1.stacked
  | listed log' => exact hstack hin.1
  | saved log' =>
    refine ⟨[logEntry log'],rs,hin.2.1,fun e he => ?_⟩
    obtain rfl : e = logEntry log' := List.mem_singleton.mp he
    exact h.kept
  | idle => exact hstack hin.stacked
  | rotated => exact hstack hin.1.stacked
  | named chosen logs table => exact hstack hin.1.stacked
  | built logs table => exact hstack hin.1.stacked
  | replaced logs table =>
    obtain ⟨last,rest,_,_,hsaved,_⟩ := hin
    exact ⟨[],_,hsaved,fun e he => by cases he⟩
  | compacted =>
    obtain ⟨table,last,rest,_,hsaved,_⟩ := hin
    exact ⟨[],_,hsaved,fun e he => by cases he⟩
  | removing todo removed =>
    obtain ⟨_,old,hold,_⟩ := h.kept
    exact ⟨[],old,hold,fun e he => by cases he⟩
  | deleting todo => exact hstack hin.1.stacked
  | closed logs => cases hin.1
  | cleaning logs => cases hin.1

theorem Process.InPhase.of_writeCount {saved : List DataFileEntry} (h : p.InPhase saved)
    (n : ℕ) : Process.InPhase {p with writeCount := n} saved := by
  rcases p with ⟨m,seq,rs,a,pw,wc,ph⟩
  cases ph
  case loaded => exact ⟨h.same,h.stacked,h.pending⟩
  case created log => exact ⟨⟨h.1.same,h.1.stacked,h.1.pending⟩,h.2⟩
  case idle => exact ⟨h.same,h.stacked,h.pending⟩
  case rotated => exact ⟨⟨h.1.same,h.1.stacked,h.1.pending⟩,h.2⟩
  case named chosen logs table => exact ⟨⟨h.1.same,h.1.stacked,h.1.pending⟩,h.2⟩
  case built logs table => exact ⟨⟨h.1.same,h.1.stacked,h.1.pending⟩,h.2⟩
  case deleting todo => exact ⟨⟨h.1.same,h.1.stacked,h.1.pending⟩,h.2⟩
  all_goals exact h

/-- A write to the active log is not seen by the others. -/
theorem Running.kept_write (h : Running new v p) (hnodup : v.savedFiles.Nodup) {log : String}
    (ha : p.activeWriter = some log) {data : DataFileEntry → ℕ → Option β}
    (hdata : ∀ e, e ≠ logEntry log → data e = v.data e) : p.Kept data v.savedFiles := by
  rcases p with ⟨m,seq,rs,a,pw,wc,ph⟩
  obtain rfl : a = some log := ha
  have hstack : (logEntry log::rs).Nodup := h.stack
  have hrs : ∀ e ∈ rs, data e = v.data e := by
    refine fun e he => hdata e ?_
    rintro rfl
    exact (List.nodup_cons.mp hstack).1 he
  have hcovers : ∀ {table : DataFileEntry} {old : List DataFileEntry}, table ≠ logEntry log →
      (∀ e ∈ old, e ∈ rs) → Covers v.data table old → Covers data table old := by
    intro table old htable hold hc
    refine ⟨hc.shown.congr_data (fun e he => ?_) (fun e he => hrs e (hold e he)),
      fun e he hlog x => ?_⟩
    · rw [List.mem_singleton.mp he]
      exact hdata table htable
    · rw [hrs e (hold e he),hdata table htable]
      exact hc.logs e he hlog x
  have hempty : ∀ log', logEntry log' ∉ logEntry log::rs → (∀ x, v.data (logEntry log') x = none) →
      ∀ x, data (logEntry log') x = none := by
    intro log' hlog' hnone x
    rw [hdata _ fun he => hlog' (he ▸ List.mem_cons_self)]
    exact hnone x
  have hin := h.inPhase
  have hkept := h.kept
  cases ph
  case created log' => exact hempty log' hin.2 hkept
  case listed log' =>
    refine hempty log' (fun hmem => ?_) hkept
    have hlist := h.nodup
    rw [hin.2.1] at hlist
    refine (List.nodup_append.mp hlist).2.2 _ ?_ _ (List.mem_singleton_self _) rfl
    rw [← List.mem_reverse,hin.1]
    exact hmem
  case saved log' =>
    refine hempty log' (fun hmem => ?_) hkept
    have hlist := List.nodup_reverse.mpr hnodup
    rw [hin.2.1] at hlist
    exact (List.nodup_cons.mp hlist).1 hmem
  case built logs table =>
    exact hcovers (logEntry_ne_tableEntry log table).symm (fun e he => he) hkept
  case replaced logs table =>
    obtain ⟨last,rest,hreaders,_⟩ := hin
    intro table' old hold
    obtain ⟨rfl,rfl⟩ := List.cons.inj (hreaders.symm.trans hold)
    refine hcovers (logEntry_ne_tableEntry log table).symm (fun e he => ?_) (hkept _ _ hold)
    rw [show rs = _ from hreaders]
    exact List.mem_cons_of_mem _ he
  case compacted =>
    obtain ⟨table,last,rest,hreaders,_⟩ := hin
    intro table' old hold
    obtain ⟨rfl,rfl⟩ := List.cons.inj (hreaders.symm.trans hold)
    refine hcovers (logEntry_ne_tableEntry log table).symm (fun e he => ?_) (hkept _ _ hold)
    rw [show rs = _ from hreaders]
    exact List.mem_cons_of_mem _ he
  case removing todo removed =>
    obtain ⟨hdead,old,hold,hnewest⟩ := hkept
    have hnodup' := List.nodup_reverse.mpr hnodup
    rw [hold] at hnodup'
    have hold' : ∀ e ∈ old, data e = v.data e := by
      refine fun e he => hdata e ?_
      rintro rfl
      exact (List.nodup_cons.mp hnodup').1 he
    have hreaders : ∀ x, newest data rs x = newest v.data rs x := fun x =>
      newest_congr fun e he => by rw [hrs e he]
    have howner : ∀ x, owner data rs x = owner v.data rs x := by
      intro x
      refine List.find?_congr fun e he => ?_
      rw [hrs e he]
    refine ⟨fun e he x => ?_,old,hold,fun x => ?_⟩
    · rw [howner]
      exact hdead e he x
    · rw [hreaders,← hnewest]
      exact newest_congr fun e he => by rw [hold' e he]
  case closed logs => cases hin.1
  all_goals trivial

/-- A write is found in the saved files at once. -/
theorem Inv.writeBlocks (h : Inv new ws v) {w : Write β} (hw : w.InRange new.numBlocks)
    {v' : Volume β} (hv : v.writeBlocks w = some v') : Inv new (w::ws) v' := by
  obtain ⟨p,hp,hv⟩ := Option.bind_eq_some_iff.mp hv
  obtain ⟨log,ha,hv⟩ := Option.bind_eq_some_iff.mp hv
  split at hv
  · next writes hfile =>
    cases hv
    have hrun := h.running p hp
    obtain ⟨front,back,hsaved,hfront⟩ := hrun.exists_saved ha
    set p' : Process := {p with writeCount := p.writeCount+w.blocks.length*p.metadata.blockSize}
    set v' := v.put (logEntry log) (some (.log (appendWrite w writes))) p' with hv'
    have hother : ∀ e, e ≠ logEntry log → v'.data e = v.data e := fun e he => data_put_of_ne he
    have hlog : ∀ x, v'.data (logEntry log) x = (w.payload x).or (v.data (logEntry log) x) := by
      intro x
      rw [hv',data_put_self,data,hfile]
      exact newest_appendWrite w writes x
    have hexists : ∀ e, (v.files e).isSome → (v'.files e).isSome := by
      intro e he
      by_cases heq : e = logEntry log
      · rw [heq,hv',put]
        simp only [Function.update_self,Option.isSome_some]
      · rw [hv',files_put_of_ne heq]
        exact he
    refine ⟨h.size,fun e x hx => ?_,h.nodup,h.ordered,fun e he => ?_,fun x => ?_,fun q hq => ?_⟩
    · by_cases he : e = logEntry log
      · rw [he,hlog,hw.payload_eq_none hx,h.bounded _ x hx]
        rfl
      · rw [hother e he]
        exact h.bounded e x hx
    · exact ⟨(h.known e he).1,hexists e (h.known e he).2⟩
    · show newest v'.data v.savedFiles.reverse x = _
      have hnodup := List.nodup_reverse.mpr h.nodup
      rw [hsaved] at hnodup
      rw [newest_cons,← h.content,hsaved]
      exact newest_append_of_or (fun e he => hfront e he x) (fun e he => by rw [hother e he])
        (hlog x) hnodup
    · cases hq
      refine ⟨hrun.size,hrun.seq,hrun.nodup,hrun.stack,hrun.savedKnown,fun e he => ?_,
        hrun.inPhase.of_writeCount _,hrun.kept_write h.nodup ha hother⟩
      have hknown := hrun.known e he
      exact ⟨hknown.1,hexists e hknown.2⟩
  · cases hv

theorem Inv.empty : Inv new [] (empty : Volume β) :=
  ⟨fun _ hm => (by cases hm),fun _ _ _ => rfl,List.nodup_nil,List.Pairwise.nil,
    fun _ he => (by cases he),fun _ => rfl,fun _ hp => by cases hp⟩

/-- The steps of a process. -/
theorem Inv.move (h : Inv new ws v) (hp : v.process = some p) {targetTableSize : ℕ}
    {a : Action} {v' : Volume β} (hs : v.move targetTableSize p a = some v')
    (hnamed : v'.named+1 < 2^64) : Inv new ws v' := by
  have hrun := h.running p hp
  cases a with
  | openBlockFile => cases hs
  | exit => cases hs
  | makeLogWriter n =>
    simp only [Volume.move] at hs
    split at hs
    · next hphase => exact h.makeLogWriter hp (.inl hphase) hs
    · next hphase =>
      split_ifs at hs
      exact h.makeLogWriter hp (.inr hphase) hs
    · cases hs
  | pushWriteLog =>
    simp only [Volume.move] at hs
    split at hs
    · next hphase =>
      cases hs
      exact h.goOn (hrun.pushWriteLog hphase)
    · cases hs
  | saveNewLog =>
    simp only [Volume.move] at hs
    split at hs
    · next hphase =>
      cases hs
      exact h.saveNewLog hp hphase
    · cases hs
  | pushNewLog =>
    simp only [Volume.move] at hs
    split at hs
    · next hphase =>
      split at hs
      · next ha =>
        cases hs
        exact h.goOn (hrun.pushFirstLog hphase ha)
      · next ha =>
        cases hs
        exact h.goOn (hrun.pushNewLog hphase ha)
    · cases hs
  | createFile chosen =>
    simp only [Volume.move] at hs
    split at hs
    · next hphase =>
      split_ifs at hs
      cases hs
      exact h.createFile hp hphase hnamed chosen
    · cases hs
  | closeTable =>
    simp only [Volume.move] at hs
    split at hs
    · next hphase =>
      cases hs
      exact h.closeTable hp hphase
    · cases hs
  | pushCompactedReader =>
    simp only [Volume.move] at hs
    split at hs
    · next hphase =>
      cases hs
      exact h.goOn (hrun.pushCompactedReader hphase)
    · cases hs
  | compactWriteLog =>
    simp only [Volume.move] at hs
    split at hs
    · next hphase =>
      split at hs
      · cases hs
      · next hlast =>
        cases hs
        exact h.goOn (hrun.compactWriteLog hphase hlast)
    · cases hs
  | liveBlocks unused =>
    simp only [Volume.move] at hs
    split at hs
    · next hphase =>
      split_ifs at hs with hperm
      cases hs
      exact h.goOn (hrun.liveBlocks h.bounded hphase hperm)
    · cases hs
  | removeUnusedReader =>
    simp only [Volume.move] at hs
    split at hs
    · next hphase =>
      cases hs
      exact h.goOn (hrun.removeUnusedReader hphase)
    · cases hs
  | saveUnused =>
    simp only [Volume.move] at hs
    split at hs
    · next hphase =>
      cases hs
      exact h.saveUnused hp hphase
    · cases hs
  | removeFile =>
    simp only [Volume.move] at hs
    split at hs
    · next hphase =>
      cases hs
      exact h.removeFile hp hphase
    · cases hs
  | compactionDone =>
    simp only [Volume.move] at hs
    split at hs
    · next hphase =>
      cases hs
      exact h.goOn (hrun.compactionDone hphase)
    · cases hs
  | closeWriters =>
    simp only [Volume.move] at hs
    split at hs
    · next hphase =>
      cases hs
      exact h.goOn (hrun.closeWriters hphase)
    · cases hs
  | saveEmpty =>
    simp only [Volume.move] at hs
    split at hs
    · next hphase =>
      cases hs
      exact h.saveEmpty hp hphase
    · cases hs
  | removeLog =>
    simp only [Volume.move] at hs
    split at hs
    · next hphase =>
      cases hs
      exact h.removeLog hp hphase
    · cases hs

theorem Inv.step (h : Inv new ws v) (hnew : new.dataFiles = []) {targetTableSize : ℕ}
    {a : Action} {v' : Volume β} (hs : v.step new targetTableSize a = some v')
    (hnamed : v'.named+1 < 2^64) :
    Inv new ws v' := by
  rw [Volume.step.eq_def] at hs
  split at hs
  · cases hs
    exact h.exit
  · obtain ⟨p,hp,hs⟩ := Option.bind_eq_some_iff.mp hs
    cases hs
    obtain ⟨p',hp',_,hrun⟩ := h.openBlockFile hnamed hnew
    obtain rfl : p' = p := Option.some.inj (hp'.symm.trans hp)
    exact h.goOn hrun
  · cases hs
  · next hp => exact h.move hp hs hnamed

/-- Names are only ever added. -/
theorem named_le_move {targetTableSize : ℕ} {a : Action} {v' : Volume β}
    (hs : v.move targetTableSize p a = some v') : v.named ≤ v'.named := by
  cases a <;> simp only [Volume.move,Volume.makeLogWriter] at hs
  all_goals repeat' split at hs
  all_goals cases hs
  all_goals first | exact le_refl _ | exact Nat.le_succ _

theorem named_le_step {new : Metadata} {targetTableSize : ℕ} {a : Action} {v' : Volume β}
    (hs : v.step new targetTableSize a = some v') : v.named ≤ v'.named := by
  rw [Volume.step.eq_def] at hs
  split at hs
  · cases hs
    exact le_refl _
  · obtain ⟨p,_,hs⟩ := Option.bind_eq_some_iff.mp hs
    cases hs
    exact le_refl _
  · cases hs
  · exact named_le_move hs

theorem named_writeBlocks {w : Write β} {v' : Volume β} (hv : v.writeBlocks w = some v') :
    v'.named = v.named := by
  obtain ⟨p,_,hv⟩ := Option.bind_eq_some_iff.mp hv
  obtain ⟨log,_,hv⟩ := Option.bind_eq_some_iff.mp hv
  split at hv <;> cases hv
  rfl

theorem Inv.of_reached (hnew : new.dataFiles = []) {targetTableSize : ℕ}
    (h : Reached new targetTableSize ws v) (hnamed : v.named+1 < 2^64) :
    Inv new ws v := by
  induction h with
  | empty => exact Inv.empty
  | write w _ hw hv ih =>
    rw [named_writeBlocks hv] at hnamed
    exact (ih hnamed).writeBlocks hw hv
  | step a _ hs ih =>
    have hle := named_le_step hs
    exact (ih (by omega)).step hnew hs hnamed

end Steps

end Volume
end Logblock
