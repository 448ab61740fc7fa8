import Logblock.TrackerWriterOrder

/-! `Flush` and `Close` of `tracker.Writer`. A flush reaches every write that had returned before it,
unless a log is just being removed; and the logs that `Close` reports as empty stay without a
block. -/
namespace Logblock
namespace TrackerWriter

open Loop Transition Volume Relation

variable {β : Type} {c c' c₁ c₂ c₃ : Config β} {logs : ℕ → TrackedWriter β} {blockSize : ℕ}
  {a : Action β}

/-- A flush has its list, and no longer once it has returned. -/
theorem flush_move (hm : Config.Moves logs blockSize c a c')
    (h : ∀ f ∈ c.flushes, f.returned = true → f.flushWriters = []) :
    ∀ f ∈ c'.flushes, f.returned = true → f.flushWriters = [] := by
  have hmodify : ∀ {n : ℕ} {f : FlushCall} {g : FlushCall → FlushCall}, c.flushes[n]? = some f →
      ((g f).returned = true → (g f).flushWriters = []) →
      ∀ f' ∈ c.flushes.modify n g, f'.returned = true → f'.flushWriters = [] := by
    intro n f g hn hg f' hf'
    obtain ⟨m,x,hx,rfl⟩ := exists_of_mem_modify hf'
    split_ifs with hnm
    · subst hnm
      rw [hn,Option.some.injEq] at hx
      exact hx ▸ hg
    · exact h x (List.mem_of_getElem? hx)
  cases hm with
  | startFlush =>
    intro f hf hret
    rcases List.mem_append.mp hf with hf | hf
    · exact h f hf hret
    · obtain rfl := List.mem_singleton.mp hf
      cases hret
  | @flushLog n l f hn hl =>
    refine hmodify hn fun hret => ?_
    rw [h f (List.mem_of_getElem? hn) hret] at hl
    cases hl
  | leaveFlush hn hwriters _ _ => exact hmodify hn fun _ => hwriters
  | finishFlush hn hwriters _ _ _ => exact hmodify hn fun _ => hwriters
  | pushNewLog =>
    unfold Config.pushNewLog
    split <;> exact h
  | _ => exact h

/-- The `n`-th flush has still to flush the log `l`, or the log was flushed after the call `e`. -/
def Config.Covers (c : Config β) (n l : ℕ) (e : LogCall β) : Prop :=
  e ∈ c.history l ∧
    ((∃ f, c.flushes[n]? = some f ∧ l ∈ f.flushWriters) ∨ Precedes (c.history l) e .flush)

theorem Config.Covers.move {n l : ℕ} {e : LogCall β} (h : c.Covers n l e)
    (hm : Config.Moves logs blockSize c a c') : c'.Covers n l e := by
  obtain ⟨hmem,h⟩ := h
  have hgrows := history_grows hm l
  refine ⟨hgrows.subset hmem,?_⟩
  rcases h with ⟨f,hf,hl⟩ | h
  · have hmodify : ∀ {m : ℕ} {g : FlushCall → FlushCall}, (∀ x, (g x).flushWriters = x.flushWriters) →
        ∃ f, (c.flushes.modify m g)[n]? = some f ∧ l ∈ f.flushWriters := by
      intro m g hg
      refine ⟨if m = n then g f else f,?_,?_⟩
      · rw [List.getElem?_modify,hf]
        split_ifs <;> rfl
      · split_ifs
        · rw [hg]
          exact hl
        · exact hl
    cases hm with
    | startFlush =>
      refine .inl ⟨f,?_,hl⟩
      rw [Config.startFlush,List.getElem?_append_left (List.getElem?_eq_some_iff.mp hf).1,hf]
    | @flushLog m l' f' hn hl' =>
      by_cases hll : l = l'
      · subst hll
        refine .inr ?_
        show Precedes ((c.call l .flush).history l) e .flush
        rw [Config.history_call_self,precedes_concat]
        exact .inr ⟨hmem,rfl⟩
      · refine .inl ⟨if m = n then {f with flushWriters := f.flushWriters.erase l'} else f,?_,?_⟩
        · show (c.flushes.modify m _)[n]? = _
          rw [List.getElem?_modify,hf]
          split_ifs <;> rfl
        · split_ifs
          · exact (List.mem_erase_of_ne hll).mpr hl
          · exact hl
    | leaveFlush _ _ _ _ => exact .inl (hmodify fun _ => rfl)
    | finishFlush _ _ _ _ _ => exact .inl (hmodify fun _ => rfl)
    | pushNewLog =>
      refine .inl ⟨f,?_,hl⟩
      unfold Config.pushNewLog
      split <;> exact hf
    | _ => exact .inl ⟨f,hf,hl⟩
  · exact .inr (h.trans hgrows.sublist)

/-- When `Flush` has returned, every log has been flushed, or closed by `PushNewLog`, after each of
the writes that had returned when the flush began, if no log was just being removed. -/
theorem flush_reaches_returned_writes (h : Run logs blockSize (fun _ => True) .new c)
    (hcloses : c.closes = []) (hremoves : ∀ r ∈ c.removes, c.pendingWritersWb.Returned r.barrier)
    (hs : c.step logs blockSize .startFlush = .ok (some c₁))
    (hrun : Run logs blockSize (fun _ => True) c₁ c₂) {f : FlushCall}
    (hf : c₂.flushes[c.flushes.length]? = some f) (hret : f.returned = true) {n l : ℕ}
    {k : WriteCall β} (hn : c.writes[n]? = some k) (hphase : k.phase = .returned)
    (hwriter : k.writer = some l) :
    Precedes (c₂.history l) (.writeBlocks n (k.write,k.blocksWritten)) .flush ∨
      Precedes (c₂.history l) (.writeBlocks n (k.write,k.blocksWritten)) .closeWriter := by
  have hinv := Inv.new.of_run h
  have hmem : .writeBlocks n (k.write,k.blocksWritten) ∈ c.history l :=
    (hinv.histories.applied l n _).mpr ⟨k,hn,rfl,hwriter,by simp [hphase]⟩
  have hc₁ : c₁ = c.startFlush := by
    simp only [Config.step] at hs
    split_ifs at hs
    · cases hs
    · cases hs
      rfl
  have hall : Run logs blockSize (fun _ => True) .new c₂ := (h.tail ⟨_,trivial,hs⟩).trans hrun
  -- a log in the list of the flush
  have hlisted : l ∈ c.pendingWriters++c.activeWriter.toList →
      Precedes (c₂.history l) (.writeBlocks n (k.write,k.blocksWritten)) .flush := by
    intro hl
    have hcovers : c₁.Covers c.flushes.length l (.writeBlocks n (k.write,k.blocksWritten)) := by
      subst hc₁
      exact ⟨hmem,.inl ⟨_,List.getElem?_concat_length,hl⟩⟩
    obtain ⟨-,⟨f',hf',hl'⟩ | hdone⟩ := run_invariant
      (Q := fun d => d.Covers c.flushes.length l (.writeBlocks n (k.write,k.blocksWritten)))
      (fun _ _ _ _ hd hm => hd.move hm) hcovers hrun
    · rw [hf,Option.some.injEq] at hf'
      subst hf'
      have hflushed := run_invariant (Q := fun d => ∀ f ∈ d.flushes, f.returned = true →
        f.flushWriters = []) (fun _ _ _ _ hd hm => flush_move hm hd) (by simp [Config.new]) hall
      rw [hflushed f (List.mem_of_getElem? hf) hret] at hl'
      cases hl'
    · exact hdone
  obtain ⟨-,hactive | ⟨b,hb⟩⟩ := hinv.logs.captured k.toCapture
    (List.mem_map_of_mem (List.mem_of_getElem? hn)) l hwriter
  · exact .inl (hlisted (by simp [hactive]))
  · rcases hinv.logs.kept l b hb with hpending | ⟨r,hr,hl⟩
    · exact .inl (hlisted (List.mem_append_left _ hpending))
    · -- the log was removed, and its closing had been waited for
      right
      have hpush : ∃ p ∈ c.pushes, p.oldWriter = l := by
        simp only [Config.retirements,hcloses,List.map_nil,List.filterMap_nil,List.append_nil,
          List.mem_map,Prod.mk.injEq] at hb
        obtain ⟨p,hp,hold,-⟩ := hb
        exact ⟨p,hp,hold⟩
      obtain ⟨p,hp,rfl⟩ := hpush
      have hreturned : p.phase = .returned := by
        by_contra hne
        exact hinv.pending.not_running (hremoves r hr) (hinv.closings.removed r hr _ hl p hp rfl)
          (hinv.closings.running p hp hne)
      have hclosed := hinv.closings.closed p hp (.inr hreturned)
      have hbefore := (precedes_or hmem hclosed (by simp)).resolve_right
        (hinv.histories.last _ _ _)
      have hgrows := (history_grows (Config.step_moves hs) p.oldWriter).trans
        (history_grows_run hrun p.oldWriter)
      exact hbefore.trans hgrows.sublist

/-- The rotated log and the new one are flushed. -/
def flushing : List (Action ℕ) :=
  [.startFlush,.flushLog 0 1,.flushLog 0 0,.leaveFlush 0,.finishFlush 0]

theorem flush_reaches_rotated_log : ∃ (c c₂ : Config ℕ) (k : WriteCall ℕ),
    Run sampleLogs 512 (fun _ => True) .new c ∧ Run sampleLogs 512 (fun _ => True) c c₂ ∧
      c.pendingWriters = [0] ∧ c.writes = [k] ∧
      (Precedes (c₂.history 0) (.writeBlocks 0 (k.write,k.blocksWritten)) .flush ∨
        Precedes (c₂.history 0) (.writeBlocks 0 (k.write,k.blocksWritten)) .closeWriter) := by
  obtain ⟨c,c₂,hc,hafter,hview,hreturned⟩ := exists_run rotation flushing
    (f := fun c => (c.pendingWriters,c.writes.map fun k => (k.writer,k.phase),
      c.flushes.length+c.closes.length+c.removes.length))
    (g := fun c => c.flushes.map (·.returned)) (x := ([0],[(some 0,.returned)],0)) (y := [true])
    (by decide +kernel) (by decide +kernel)
  simp only [Prod.mk.injEq,Nat.add_eq_zero_iff,List.length_eq_zero_iff] at hview
  obtain ⟨hpending,hwrites,⟨hflushes,hcloses⟩,hremoves⟩ := hview
  obtain ⟨c₁,hs,hafter⟩ := exists_of_after_cons hafter
  have hrun := run_of_after (P := fun _ => True) (fun _ _ => trivial) hafter
  obtain ⟨k,hk,hview⟩ := List.map_eq_singleton_iff.mp hwrites
  obtain ⟨hwriter,hphase⟩ := Prod.mk.inj hview
  obtain ⟨f,hf,hret⟩ := List.map_eq_singleton_iff.mp hreturned
  refine ⟨c,c₂,k,hc,.head ⟨_,trivial,hs⟩ hrun,hpending,hk,?_⟩
  exact flush_reaches_returned_writes hc hcloses (by simp [hremoves]) hs hrun (f := f)
    (by rw [hflushes,hf]; rfl) hret (by rw [hk]; rfl) hphase hwriter

def ClosePhase.emptyLogs : ClosePhase → List ℕ
  | .closing _ emptyLogs | .returned emptyLogs => emptyLogs
  | _ => []

/-- How a call of `Close` goes on. -/
inductive CloseMoves (logs : ℕ → TrackedWriter β) (c c' : Config β) (k : CloseCall) :
    ClosePhase → Prop
  | same : CloseMoves logs c c' k k.phase
  | drained (b : ℕ) (hphase : k.phase = .draining) (hret : c.activeWriterWb.Returned k.barrier) :
      CloseMoves logs c c' k (.flushing b)
  | lockPending {b : ℕ} (hphase : k.phase = .flushing b) :
      CloseMoves logs c c' k (.closing c.pendingWriters [])
  | closeLog {l : ℕ} {todo emptyLogs : List ℕ} (hphase : k.phase = .closing (l::todo) emptyLogs)
      (hhistory : c'.history l = c.history l++[.close]) : CloseMoves logs c c' k (.closing todo
        (if (logs l).written (c.history l++[.close]) = 0 then emptyLogs++[l] else emptyLogs))
  | finishClose {emptyLogs : List ℕ} (hphase : k.phase = .closing [] emptyLogs) :
      CloseMoves logs c c' k (.returned emptyLogs)

theorem close_move (hm : Config.Moves logs blockSize c a c') {n : ℕ} {k : CloseCall}
    (hk : c.closes[n]? = some k) :
    ∃ phase, c'.closes[n]? = some {k with phase := phase} ∧ CloseMoves logs c c' k phase := by
  have hsame : c'.closes[n]? = some k → ∃ phase, c'.closes[n]? = some {k with phase := phase} ∧
      CloseMoves logs c c' k phase := fun he => ⟨k.phase,he,.same⟩
  have hmodify : ∀ {m : ℕ} {x : CloseCall} {phase : ClosePhase},
      c'.closes = c.closes.modify m (fun k => {k with phase := phase}) → c.closes[m]? = some x →
      CloseMoves logs c c' x phase →
      ∃ phase, c'.closes[n]? = some {k with phase := phase} ∧ CloseMoves logs c c' k phase := by
    intro m x phase hcloses hx hmoves
    by_cases hmn : m = n
    · subst hmn
      rw [hk,Option.some.injEq] at hx
      subst hx
      exact ⟨phase,by rw [hcloses]; exact getElem?_modify_self hk,hmoves⟩
    · exact hsame (by rw [hcloses,List.getElem?_modify_ne _ _ hmn,hk])
  cases hm with
  | startClose =>
    exact hsame (by rw [Config.startClose,List.getElem?_append_left
      (List.getElem?_eq_some_iff.mp hk).1,hk])
  | drained hn hphase hret => exact hmodify rfl hn (.drained _ hphase hret)
  | lockPending hn hphase _ => exact hmodify rfl hn (.lockPending hphase)
  | closeLog hn hphase =>
    exact hmodify rfl hn (.closeLog hphase (Config.history_call_self _ _))
  | finishClose hn hphase => exact hmodify rfl hn (.finishClose hphase)
  | pushNewLog =>
    refine hsame ?_
    unfold Config.pushNewLog
    split <;> exact hk
  | _ => exact hsame hk

/-- All the writes that the log has were there when it was found to be empty. -/
def Config.FoundEmpty (logs : ℕ → TrackedWriter β) (c : Config β) (l : ℕ) : Prop :=
  ∃ h, (logs l).written h = 0 ∧ h <+: c.history l ∧ writeNumbers (c.history l) = writeNumbers h

/-- The `n`-th call of `Close` is in progress, or has returned, and no log was pushed since it began:
its barrier `b` waits for all writes. -/
structure Closing (logs : ℕ → TrackedWriter β) (n b : ℕ) (c : Config β) : Prop where
  inactive : c.activeWriter = none
  waited : ∀ s ∈ c.captures, s.writer ≠ none → c.activeWriterWb.WaitsFor b s.context
  call : ∃ k, c.closes[n]? = some k ∧ k.barrier = b ∧
    (k.phase ≠ .draining → c.activeWriterWb.Returned b) ∧
    (∀ todo emptyLogs, k.phase = .closing todo emptyLogs → ∀ l ∈ todo, l < c.pushed) ∧
    ∀ l ∈ k.phase.emptyLogs, l < c.pushed ∧ c.FoundEmpty logs l

namespace Closing

variable {n b : ℕ}

theorem frozen (h : Closing logs n b c) (hinv : Inv c) (hret : c.activeWriterWb.Returned b) {l : ℕ}
    (hl : l < c.pushed) : c.Frozen l := by
  refine ⟨hl,by simp [h.inactive],fun k hk hwriter => ?_⟩
  by_contra hne
  exact hinv.active.not_running hret
    (h.waited k.toCapture (List.mem_map_of_mem hk) (by simp [hwriter]))
    (hinv.contexts.running k hk hne)

theorem foundEmpty_move {l : ℕ} (hfrozen : c.Frozen l)
    (hm : Config.Moves logs blockSize c a c') (h : c.FoundEmpty logs l) : c'.FoundEmpty logs l := by
  obtain ⟨g,hg,hgrows,hnumbers⟩ := h
  exact ⟨g,hg,hgrows.trans (history_grows hm l),(hfrozen.move hm).2.trans hnumbers⟩

theorem move (h : Closing logs n b c) (hinv : Inv c)
    (hm : Config.Moves logs blockSize c a c') (ha : a ≠ .pushNewLog) : Closing logs n b c' := by
  have hreturned : c.activeWriterWb.Returned b → c'.activeWriterWb.Returned b := by
    intro hret
    rcases active_step hm with he | ⟨_,hs⟩
    · rwa [he]
    · exact hret.step hs
  obtain ⟨k,hk,rfl,hret,htodo,hempty⟩ := h.call
  have hempty' : k.phase ≠ .draining → ∀ l ∈ k.phase.emptyLogs,
      l < c'.pushed ∧ c'.FoundEmpty logs l := by
    intro hne l hl
    obtain ⟨hlt,hfound⟩ := hempty l hl
    exact ⟨hlt.trans_le (pushed_le hm),foundEmpty_move (h.frozen hinv (hret hne) hlt) hm hfound⟩
  refine ⟨?_,fun s hs hwriter => ?_,?_⟩
  · cases hm with
    | pushNewLog => exact absurd rfl ha
    | startClose => rfl
    | _ => exact h.inactive
  · obtain ⟨k',hk',rfl⟩ := List.mem_map.mp hs
    obtain ⟨m,hm'⟩ := List.mem_iff_getElem?.mp hk'
    rcases write_move hm hm' with ⟨-,he⟩ | ⟨x,hx,hcapture,-⟩
    · exact absurd (he.trans h.inactive) hwriter
    · rw [hcapture] at hwriter ⊢
      have hwaits := h.waited _ (List.mem_map_of_mem (List.mem_of_getElem? hx)) hwriter
      rcases active_step hm with he | ⟨_,hs⟩
      · rwa [he]
      · exact hwaits.step hs
  · obtain ⟨phase,hk',hmoves⟩ := close_move hm hk
    refine ⟨_,hk',rfl,?_⟩
    cases hmoves with
    | same =>
      refine ⟨fun hne => hreturned (hret hne),fun todo e he l hl =>
        (htodo todo e he l hl).trans_le (pushed_le hm),fun l hl => hempty' (fun he => ?_) l hl⟩
      rw [he] at hl
      cases hl
    | drained _ _ hr => exact ⟨fun _ => hreturned hr,by rintro _ _ ⟨⟩,by rintro _ ⟨⟩⟩
    | lockPending hphase =>
      refine ⟨fun _ => hreturned (hret (by simp [hphase])),?_,by rintro _ ⟨⟩⟩
      rintro _ _ ⟨⟩ l hl
      exact (hinv.logs.pending l hl).1.trans_le (pushed_le hm)
    | @closeLog l todo emptyLogs hphase hhistory =>
      have hne : k.phase ≠ .draining := by simp [hphase]
      have hlt := htodo _ _ hphase
      refine ⟨fun _ => hreturned (hret hne),?_,fun l' hl' => ?_⟩
      · rintro _ _ ⟨⟩ l' hl'
        exact (hlt l' (List.mem_cons_of_mem l hl')).trans_le (pushed_le hm)
      · simp only [ClosePhase.emptyLogs] at hl'
        split_ifs at hl' with hwritten
        · rcases List.mem_append.mp hl' with hl' | hl'
          · exact hempty' hne l' (by simpa [hphase,ClosePhase.emptyLogs] using hl')
          · obtain rfl := List.mem_singleton.mp hl'
            refine ⟨(hlt l' List.mem_cons_self).trans_le (pushed_le hm),_,hwritten,?_,?_⟩
            · rw [hhistory]
            · rw [hhistory]
        · exact hempty' hne l' (by simpa [hphase,ClosePhase.emptyLogs] using hl')
    | @finishClose emptyLogs hphase =>
      have hne : k.phase ≠ .draining := by simp [hphase]
      refine ⟨fun _ => hreturned (hret hne),by rintro _ _ ⟨⟩,fun l hl => ?_⟩
      exact hempty' hne l (by simpa [hphase,ClosePhase.emptyLogs] using hl)

theorem start (hinv : Inv c) : Closing logs c.closes.length c.activeWriterWb.calls.length
    c.startClose := by
  refine ⟨rfl,fun s hs _ => ?_,_,List.getElem?_concat_length,rfl,fun he => absurd rfl he,
    by rintro _ _ ⟨⟩,by rintro _ ⟨⟩⟩
  exact WaitBarrier.waitsFor_barrier true
    (hinv.contexts.lt _ (List.mem_append_left _ (List.mem_map_of_mem hs)))

end Closing

/-- The logs that `Close` reports as empty have no block, and will never have one: every write that
went to one of them has returned without a block. A log that has taken a block is assumed not to
count nothing as written, and no log to be pushed while `Close` runs. -/
theorem empty_logs_have_no_block
    (hwritten : ∀ l h, (logs l).written h = 0 → ∀ n w, .writeBlocks n w ∈ h → w.2 = 0)
    (h : Run logs blockSize (fun _ => True) .new c)
    (hs : c.step logs blockSize .startClose = .ok (some c₁))
    (hrun : Run logs blockSize (fun a => a ≠ .pushNewLog) c₁ c₂) {k : CloseCall}
    {emptyLogs : List ℕ} (hk : c₂.closes[c.closes.length]? = some k)
    (hphase : k.phase = .returned emptyLogs) (hlater : Run logs blockSize (fun _ => True) c₂ c₃) :
    ∀ l ∈ emptyLogs, ∀ k ∈ c₃.writes, k.writer = some l → k.phase = .returned ∧
      k.blocksWritten = 0 := by
  have hinv := Inv.new.of_run h
  have hc₁ : c₁ = c.startClose := by
    simp only [Config.step] at hs
    split_ifs at hs
    · cases hs
    · cases hs
      rfl
  obtain ⟨hinv₂,hclosing⟩ := run_invariant (Q := fun d => Inv d ∧
      Closing logs c.closes.length c.activeWriterWb.calls.length d)
    (fun _ _ _ ha hd hm => ⟨hd.1.move hm,hd.2.move hd.1 hm ha⟩)
    ⟨hinv.move (Config.step_moves hs),hc₁ ▸ Closing.start hinv⟩ hrun
  obtain ⟨k',hk',-,hret,-,hempty⟩ := hclosing.call
  rw [hk,Option.some.injEq] at hk'
  subst hk'
  intro l hl x hx hwriter
  obtain ⟨hlt,g,hg,hgrows,hnumbers⟩ := hempty l (by simpa [hphase,ClosePhase.emptyLogs] using hl)
  obtain ⟨hfrozen,hsame⟩ := (hclosing.frozen hinv₂ (hret (by simp [hphase])) hlt).run hlater
  have hreturned := hfrozen.returned x hx hwriter
  refine ⟨hreturned,?_⟩
  have hinv₃ := hinv₂.of_run hlater
  obtain ⟨n,hn⟩ := List.mem_iff_getElem?.mp hx
  have hmem : .writeBlocks n (x.write,x.blocksWritten) ∈ c₃.history l :=
    (hinv₃.histories.applied l n _).mpr ⟨x,hn,rfl,hwriter,by simp [hreturned]⟩
  -- the write was in the log when it was found to be empty
  have hn' : n ∈ writeNumbers g := by
    rw [← hnumbers,← hsame]
    exact mem_writeNumbers.mpr ⟨_,hmem⟩
  obtain ⟨w,hw⟩ := mem_writeNumbers.mp hn'
  have hw₃ := (hgrows.trans (history_grows_run hlater l)).subset hw
  obtain ⟨y,hy,rfl,-⟩ := (hinv₃.histories.applied l n w).mp hw₃
  rw [hn,Option.some.injEq] at hy
  subst hy
  exact hwritten l g hg n _ hw

/-- The new log is closed without a write. -/
def closing : List (Action ℕ) :=
  [.startClose,.activeBarrier (.unlock 1),.activeBarrier (.wait 1),.activeBarrier (.barrierDone 1),
    .drained 0,.pendingBarrier (.unlock 0),.closeWriter 0,.finishPush 0,.pendingBarrier (.wait 0),
    .pendingBarrier (.barrierDone 0),.lockPending 0,.closeLog 0,.closeLog 0,.finishClose 0]

theorem sampleLogs_written (l : ℕ) (h : List (LogCall ℕ)) (hzero : (sampleLogs l).written h = 0)
    (n : ℕ) (w : Write ℕ × ℕ) (hmem : .writeBlocks n w ∈ h) : w.2 = 0 := by
  have hnil : writeNumbers h = [] := by simpa [sampleLogs] using hzero
  have := mem_writeNumbers.mpr ⟨w,hmem⟩
  rw [hnil] at this
  cases this

theorem empty_log_of_rotation : ∃ c c₂ : Config ℕ, Run sampleLogs 512 (fun _ => True) .new c ∧
    Run sampleLogs 512 (fun _ => True) c c₂ ∧ c₂.closes = [⟨some 1,1,.returned [1]⟩] ∧
      c₂.writes.map (·.writer) = [some 0] ∧
      ∀ k ∈ c₂.writes, k.writer = some 1 → k.phase = .returned ∧ k.blocksWritten = 0 := by
  obtain ⟨c,c₂,hc,hafter,hcloses,hview⟩ := exists_run rotation closing
    (f := fun c => c.closes.length) (g := fun c => (c.closes,c.writes.map (·.writer)))
    (x := 0) (y := ([⟨some 1,1,.returned [1]⟩],[some 0])) (by decide +kernel) (by decide +kernel)
  obtain ⟨hreturned,hwriters⟩ := Prod.mk.inj hview
  obtain ⟨c₁,hs,hafter⟩ := exists_of_after_cons hafter
  have hrun := run_of_after (P := fun a => a ≠ .pushNewLog) (by simp) hafter
  refine ⟨c,c₂,hc,.head ⟨_,trivial,hs⟩ (StepsBy.mono (fun _ _ => trivial) hrun),hreturned,hwriters,?_⟩
  exact empty_logs_have_no_block sampleLogs_written hc hs hrun (by rw [hcloses,hreturned]; rfl) rfl
    .refl 1 (by simp)

end TrackerWriter
end Logblock
