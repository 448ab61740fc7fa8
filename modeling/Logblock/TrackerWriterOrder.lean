import Logblock.TrackerWriterInvariant

/-! What the calls of `tracker.Writer` may rely on: a log that was rotated out gets no more writes,
the writes take effect in an order that agrees with time, and a flush reaches every write that had
returned before it. -/
namespace Logblock
namespace TrackerWriter

open Loop Transition Layers Volume Relation

variable {β : Type} {c c' : Config β} {logs : ℕ → TrackedWriter β} {blockSize : ℕ} {a : Action β}

/-- The steps of some actions. -/
abbrev Run (logs : ℕ → TrackedWriter β) (blockSize : ℕ) (P : Action β → Prop) :
    Config β → Config β → Prop :=
  ReflTransGen (StepsBy (Config.step logs blockSize) P)

/-- Nothing is on its way to the log, and nothing will be. -/
structure Config.Frozen (c : Config β) (l : ℕ) : Prop where
  lt : l < c.pushed
  inactive : c.activeWriter ≠ some l
  returned : ∀ k ∈ c.writes, k.writer = some l → k.phase = .returned

theorem pushed_le (hm : Config.Moves logs blockSize c a c') : c.pushed ≤ c'.pushed := by
  cases hm with
  | pushPending => exact Nat.le_succ _
  | pushNewLog =>
    unfold Config.pushNewLog
    split <;> exact Nat.le_succ _
  | _ => exact le_rfl

/-- The log that is active is still the same, or a new one, or there is none. -/
theorem active_move (hm : Config.Moves logs blockSize c a c') {l : ℕ}
    (hl : c'.activeWriter = some l) : c.activeWriter = some l ∨ l = c.pushed := by
  cases hm with
  | pushNewLog =>
    unfold Config.pushNewLog at hl
    split at hl
    · cases hl
      exact .inr rfl
    · cases hl
      exact .inr rfl
  | startClose => cases hl
  | _ => exact .inl hl

/-- A call of `WriteBlocks` is a new one for the active log, or was there before and had not
returned if it moves. -/
theorem write_move (hm : Config.Moves logs blockSize c a c') {n : ℕ} {k' : WriteCall β}
    (hn : c'.writes[n]? = some k') : n = c.writes.length ∧ k'.writer = c.activeWriter ∨
      ∃ k, c.writes[n]? = some k ∧ k'.toCapture = k.toCapture ∧
        (k.phase = .returned → k'.phase = .returned) := by
  have hmodify : ∀ {m : ℕ} {k : WriteCall β} {f : WriteCall β → WriteCall β},
      (c.writes.modify m f)[n]? = some k' → c.writes[m]? = some k →
      (∀ x, (f x).toCapture = x.toCapture) → k.phase ≠ .returned → ∃ k, c.writes[n]? = some k ∧
        k'.toCapture = k.toCapture ∧ (k.phase = .returned → k'.phase = .returned) := by
    intro m k f hn hk hf hne
    obtain ⟨x,hx,rfl⟩ := exists_of_modify hn
    refine ⟨x,hx,?_,?_⟩
    · split_ifs
      · exact hf x
      · rfl
    · split_ifs with hmn
      · subst hmn
        rw [hk,Option.some.injEq] at hx
        exact fun he => absurd (hx ▸ he) hne
      · exact id
  cases hm with
  | startWrite w =>
    simp only [Config.startWrite] at hn
    rcases Nat.lt_trichotomy n c.writes.length with hlt | rfl | hlt
    · rw [List.getElem?_append_left hlt] at hn
      exact .inr ⟨k',hn,rfl,id⟩
    · rw [List.getElem?_concat_length] at hn
      cases hn
      exact .inl ⟨rfl,rfl⟩
    · rw [List.getElem?_eq_none (by simpa using hlt)] at hn
      cases hn
  | noWriter hk hphase _ => exact .inr (hmodify hn hk (fun _ => rfl) (by simp [hphase]))
  | writeBlocks hk hphase _ => exact .inr (hmodify hn hk (fun _ => rfl) (by simp [hphase]))
  | countWrite hk hphase => exact .inr (hmodify hn hk (fun _ => rfl) (by simp [hphase]))
  | finishWrite hk hphase _ => exact .inr (hmodify hn hk (fun _ => rfl) (by simp [hphase]))
  | pushNewLog =>
    have hwrites : c.pushNewLog.writes = c.writes := by
      unfold Config.pushNewLog
      split <;> rfl
    exact .inr ⟨k',hwrites ▸ hn,rfl,id⟩
  | _ => exact .inr ⟨k',hn,rfl,id⟩

namespace Config.Frozen

variable {l : ℕ}

theorem move (h : c.Frozen l) (hm : Config.Moves logs blockSize c a c') :
    c'.Frozen l ∧ writeNumbers (c'.history l) = writeNumbers (c.history l) := by
  refine ⟨⟨h.lt.trans_le (pushed_le hm),fun he => ?_,fun k' hk' hl => ?_⟩,?_⟩
  · rcases active_move hm he with he | he
    · exact h.inactive he
    · exact h.lt.ne he
  · obtain ⟨n,hn⟩ := List.mem_iff_getElem?.mp hk'
    rcases write_move hm hn with ⟨-,he⟩ | ⟨k,hk,hcapture,hret⟩
    · exact absurd (he.symm.trans hl) h.inactive
    · rw [hcapture] at hl
      exact hret (h.returned k (List.mem_of_getElem? hk) hl)
  · have hcall : ∀ (l' : ℕ) (k : LogCall β), k.number = none →
        writeNumbers ((c.call l' k).history l) = writeNumbers (c.history l) := by
      intro l' k hk
      by_cases hl : l = l'
      · subst hl
        rw [history_call_self,writeNumbers_append]
        simp [writeNumbers,hk]
      · rw [history_call_of_ne hl]
    cases hm with
    | @writeBlocks n l' k hn hphase hwriter =>
      show writeNumbers ((c.call l' _).history l) = _
      by_cases hl : l = l'
      · subst hl
        have := h.returned k (List.mem_of_getElem? hn) hwriter
        rw [hphase] at this
        cases this
      · rw [history_call_of_ne hl]
    | closeWriter _ _ => exact hcall _ _ rfl
    | flushLog _ _ => exact hcall _ _ rfl
    | closeLog _ _ => exact hcall _ _ rfl
    | pushNewLog =>
      unfold Config.pushNewLog
      split <;> rfl
    | _ => rfl

theorem run {P : Action β → Prop} (h : c.Frozen l) (hrun : Run logs blockSize P c c') :
    c'.Frozen l ∧ writeNumbers (c'.history l) = writeNumbers (c.history l) := by
  induction hrun with
  | refl => exact ⟨h,rfl⟩
  | tail _ hlast ih =>
    obtain ⟨_,_,hs⟩ := hlast
    obtain ⟨hfrozen,he⟩ := ih.1.move (step_moves hs)
    exact ⟨hfrozen,he.trans ih.2⟩

end Config.Frozen

/-- When `PushNewLog` has returned, the old log has all the writes that it will ever get, and none
of them is in flight; and no write ever comes to a log after `CloseWriter`. -/
theorem rotated_log_gets_no_write (h : Run logs blockSize (fun _ => True) .new c) {n : ℕ}
    {p : PushCall} (hn : c.pushes[n]? = some p) (hphase : p.phase ≠ .waiting)
    (hrun : Run logs blockSize (fun _ => True) c c') :
    (∀ k ∈ c'.writes, k.writer = some p.oldWriter → k.phase = .returned) ∧
    writeNumbers (c'.history p.oldWriter) = writeNumbers (c.history p.oldWriter) ∧
    ∀ l m w, ¬Precedes (c'.history l) .closeWriter (.writeBlocks m w) := by
  have hinv := Inv.new.of_run h
  have hp := List.mem_of_getElem? hn
  obtain ⟨hlt,hinactive,-⟩ := hinv.logs.retired _ _ (Config.mem_retirements_of_push hp)
  have hfrozen : c.Frozen p.oldWriter := by
    refine ⟨hlt,hinactive,fun k hk hwriter => ?_⟩
    by_contra hne
    exact hphase (hinv.histories.not_closed hinv.active hinv.contexts hinv.logs hk hne hwriter p hp
      rfl)
  obtain ⟨hfrozen',he⟩ := hfrozen.run hrun
  exact ⟨hfrozen'.returned,he,(hinv.of_run hrun).histories.last⟩

section Sample

/-- Logs that take one block of a write. -/
def sampleLogs (_ : ℕ) : TrackedWriter ℕ where
  writeBlocks _ w := (min 1 w.blocks.length,if 1 < w.blocks.length then some .device else none)
  written h := (writeNumbers h).length

/-- A log is rotated out while a write to it is in flight. -/
def rotation : List (Action ℕ) :=
  [.pushNewLog,.startWrite ⟨0,[5]⟩,.pushNewLog,.writeBlocks 0,.countWrite 0,.finishWrite 0,
    .activeBarrier (.unlock 0),.activeBarrier (.wait 0),.activeBarrier (.barrierDone 0),.resetCount 0]

def secondWrite : List (Action ℕ) := [.startWrite ⟨0,[6,7]⟩,.closeWriter 0,.writeBlocks 1]

/-- The states in the middle and at the end of a run, with what can be computed of them. -/
theorem exists_run {γ δ : Type} (as bs : List (Action ℕ)) {f : Config ℕ → γ} {g : Config ℕ → δ}
    {x : γ} {y : δ}
    (hf : ((after (Config.step sampleLogs 512) .new as).toOption.join.map f) = some x)
    (hg : ((after (Config.step sampleLogs 512) .new (as++bs)).toOption.join.map g) = some y) :
    ∃ c c', Run sampleLogs 512 (fun _ => True) .new c ∧
      after (Config.step sampleLogs 512) c bs = .ok (some c') ∧ f c = x ∧ g c' = y := by
  obtain ⟨c',hrun,hy⟩ := exists_of_view hg
  obtain ⟨c,hc,hafter⟩ := exists_of_after_append hrun
  refine ⟨c,c',run_of_after (fun _ _ => trivial) hc,hafter,?_,hy⟩
  rw [hc] at hf
  exact Option.some.inj hf

theorem rotated_log_keeps_its_write : ∃ c c' : Config ℕ,
    Run sampleLogs 512 (fun _ => True) .new c ∧ Run sampleLogs 512 (fun _ => True) c c' ∧
      c.pushes = [⟨0,0,0,.closing⟩] ∧ c'.writes.map (·.writer) = [some 0,some 1] ∧
      writeNumbers (c'.history 0) = writeNumbers (c.history 0) ∧ writeNumbers (c'.history 1) = [1] ∧
      ∀ l m w, ¬Precedes (c'.history l) .closeWriter (.writeBlocks m w) := by
  obtain ⟨c,c',hc,hafter,hpushes,hview⟩ := exists_run rotation secondWrite
    (f := fun c => c.pushes) (g := fun c => (c.writes.map (·.writer),writeNumbers (c.history 1)))
    (x := [⟨0,0,0,.closing⟩]) (y := ([some 0,some 1],[1])) (by decide +kernel) (by decide +kernel)
  obtain ⟨hwriters,hnumbers⟩ := Prod.mk.inj hview
  have hrun := run_of_after (P := fun _ => True) (fun _ _ => trivial) hafter
  obtain ⟨-,hsame,hlast⟩ := rotated_log_gets_no_write hc (n := 0) (by rw [hpushes]; rfl) (by decide) hrun
  exact ⟨c,c',hc,hrun,hpushes,hwriters,hsame,hnumbers,hlast⟩

end Sample

/-- The blocks of a write that its log took: as many of the first ones as it returned. -/
def taken (w : Write β × ℕ) : Write β := {w.1 with blocks := w.1.blocks.take w.2}

def LogCall.payload : LogCall β → ℕ → Option β
  | .writeBlocks _ w => (taken w).payload
  | _ => fun _ => none

/-- What a log holds after the calls that it had. -/
def held (h : List (LogCall β)) : ℕ → Option β := newest LogCall.payload h.reverse

namespace Config

/-- The writes that have gone to a log, log by log. -/
def order (c : Config β) : List ℕ := (List.range c.pushed).flatMap fun l => writeNumbers (c.history l)

/-- What the `n`-th write put into its log. -/
def payload (c : Config β) (n x : ℕ) : Option β :=
  (c.writes[n]?).bind fun k => (taken (k.write,k.blocksWritten)).payload x

/-- What the logs show, the last one on top. -/
def content (c : Config β) : ℕ → Option β :=
  newest (fun l => held (c.history l)) (List.range c.pushed).reverse

end Config

/-- A log holds what the calls of `WriteBlocks` that came to it put there. -/
theorem Inv.held_eq (h : Inv c) (l x : ℕ) :
    held (c.history l) x = newest c.payload (writeNumbers (c.history l)).reverse x := by
  rw [held,writeNumbers,← List.filterMap_reverse,newest_filterMap]
  refine newest_congr fun k hk => ?_
  cases k with
  | writeBlocks n w =>
    obtain ⟨call,hn,rfl,-⟩ := (h.histories.applied l n w).mp (List.mem_reverse.mp hk)
    simp [LogCall.payload,LogCall.number,Config.payload,hn]
  | flush | closeWriter | close => rfl

theorem Inv.mem_writeNumbers_iff (h : Inv c) {l n : ℕ} :
    n ∈ writeNumbers (c.history l) ↔ ∃ w, c.Applied l n w := by
  rw [mem_writeNumbers]
  exact exists_congr fun w => h.histories.applied l n w

theorem Inv.mem_order_iff (h : Inv c) {n : ℕ} : n ∈ c.order ↔ ∃ l w, c.Applied l n w := by
  rw [Config.order,List.mem_flatMap]
  constructor
  · rintro ⟨l,-,hn⟩
    exact ⟨l,h.mem_writeNumbers_iff.mp hn⟩
  · rintro ⟨l,w,happlied⟩
    refine ⟨l,List.mem_range.mpr ?_,h.mem_writeNumbers_iff.mpr ⟨w,happlied⟩⟩
    obtain ⟨k,hk,-,hwriter,-⟩ := happlied
    exact (h.logs.captured k.toCapture (List.mem_map_of_mem (List.mem_of_getElem? hk)) l hwriter).1

theorem Inv.order_nodup (h : Inv c) : c.order.Nodup := by
  rw [Config.order,List.nodup_flatMap]
  refine ⟨fun l _ => h.histories.once l,List.nodup_range.imp fun {l l'} hne => ?_⟩
  intro n hn hn'
  obtain ⟨_,k,hk,-,hwriter,-⟩ := h.mem_writeNumbers_iff.mp hn
  obtain ⟨_,k',hk',-,hwriter',-⟩ := h.mem_writeNumbers_iff.mp hn'
  rw [hk,Option.some.injEq] at hk'
  subst hk'
  exact hne (Option.some.inj (hwriter.symm.trans hwriter'))

theorem history_grows_run {P : Action β → Prop} (hrun : Run logs blockSize P c c') (l : ℕ) :
    c.history l <+: c'.history l := by
  induction hrun with
  | refl => exact List.prefix_refl _
  | tail _ hlast ih =>
    obtain ⟨_,_,hs⟩ := hlast
    exact ih.trans (history_grows (Config.step_moves hs) l)

theorem captures_grow (hm : Config.Moves logs blockSize c a c') : c.captures <+: c'.captures := by
  have hsame : c'.captures = c.captures → c.captures <+: c'.captures := fun he => by rw [he]
  cases hm with
  | startWrite w =>
    rw [Config.captures,Config.captures]
    simp only [Config.startWrite,List.map_append]
    exact List.prefix_append _ _
  | noWriter _ _ _ => exact hsame (Config.captures_setResult _ _ _)
  | writeBlocks _ _ _ => exact hsame (Config.captures_setResult _ _ _)
  | countWrite _ _ => exact hsame (Config.captures_setWrite _ _)
  | finishWrite _ _ _ => exact hsame (Config.captures_setWrite _ _)
  | pushNewLog =>
    unfold Config.pushNewLog
    split <;> exact List.prefix_refl _
  | _ => exact List.prefix_refl _

/-- What a call took under the lock, it keeps. -/
theorem captures_grow_run {P : Action β → Prop} (hrun : Run logs blockSize P c c') :
    c.captures <+: c'.captures := by
  induction hrun with
  | refl => exact List.prefix_refl _
  | tail _ hlast ih =>
    obtain ⟨_,_,hs⟩ := hlast
    exact ih.trans (captures_grow (Config.step_moves hs))

/-- A later call has the log of an earlier one, or a later log. -/
theorem Inv.writer_le (h : Inv c) {m n : ℕ} {k k' : WriteCall β} {l l' : ℕ} (hmn : m < n)
    (hm : c.writes[m]? = some k) (hn : c.writes[n]? = some k') (hl : k.writer = some l)
    (hl' : k'.writer = some l') : l ≤ l' := by
  obtain ⟨hlt,rfl⟩ := List.getElem?_eq_some_iff.mp hm
  obtain ⟨hlt',rfl⟩ := List.getElem?_eq_some_iff.mp hn
  have hle := List.pairwise_iff_getElem.mp h.logs.ordered m n (by simpa [Config.captures] using hlt)
    (by simpa [Config.captures] using hlt') hmn l l'
  simp only [Config.captures,List.getElem_map] at hle
  exact hle hl hl'

/-- A write that had returned before another one began comes before it. -/
theorem Inv.precedes_order (h : Inv c) (hrun : Run logs blockSize (fun _ => True) c c') {m n : ℕ}
    {k : WriteCall β} (hm : c.writes[m]? = some k) (hret : k.phase = .returned)
    (hn : c.writes.length ≤ n) (hm' : m ∈ c'.order) (hn' : n ∈ c'.order) :
    Precedes c'.order m n := by
  have h' := h.of_run hrun
  obtain ⟨l,w,happlied⟩ := h'.mem_order_iff.mp hm'
  obtain ⟨l',w',happlied'⟩ := h'.mem_order_iff.mp hn'
  have hmem := h'.mem_writeNumbers_iff.mpr ⟨w,happlied⟩
  have hmem' := h'.mem_writeNumbers_iff.mpr ⟨w',happlied'⟩
  have hlt' : l' < c'.pushed := by
    obtain ⟨k',hk',-,hwriter,-⟩ := happlied'
    exact (h'.logs.captured k'.toCapture (List.mem_map_of_mem (List.mem_of_getElem? hk')) l'
      hwriter).1
  obtain ⟨x,hx,-,hl,-⟩ := happlied
  obtain ⟨x',hx',-,hl',-⟩ := happlied'
  have hlen : m < c.writes.length := (List.getElem?_eq_some_iff.mp hm).1
  rcases Nat.lt_or_eq_of_le (h'.writer_le (by omega) hx hx' hl hl') with hll | rfl
  · exact precedes_flatMap (precedes_range hll hlt') hmem hmem'
  · -- both are in one log, where the first one already was when the second one began
    have hwriter : k.writer = some l := by
      obtain ⟨t,ht⟩ := captures_grow_run hrun
      have hcapture : c'.captures[m]? = some k.toCapture := by
        rw [← ht,List.getElem?_append_left (by simpa [Config.captures] using hlen)]
        simp [Config.captures,hm]
      simp only [Config.captures,List.getElem?_map,hx,Option.map_some,Option.some.injEq] at hcapture
      rw [← hcapture]
      exact hl
    have hold : m ∈ writeNumbers (c.history l) :=
      h.mem_writeNumbers_iff.mpr ⟨_,k,hm,rfl,hwriter,by simp [hret]⟩
    have hfresh : n ∉ writeNumbers (c.history l) := by
      intro hmem
      obtain ⟨_,y,hy,-⟩ := h.mem_writeNumbers_iff.mp hmem
      have := (List.getElem?_eq_some_iff.mp hy).1
      omega
    obtain ⟨t,ht⟩ := history_grows_run hrun l
    rw [← ht,writeNumbers_append] at hmem'
    refine Precedes.flatMap (List.mem_range.mpr hlt') ?_
    rw [← ht,writeNumbers_append]
    exact precedes_append hold ((List.mem_append.mp hmem').resolve_left hfresh)

/-- The writes take effect in one order, each of them once. A write that has returned comes before
every write that begins later, and the logs, the last one on top, show the writes in that order, each
with as many of its blocks as its log took. -/
theorem writes_take_effect_in_order (h : Run logs blockSize (fun _ => True) .new c)
    (hrun : Run logs blockSize (fun _ => True) c c') :
    c'.order.Nodup ∧ (∀ n, n ∈ c'.order ↔ ∃ l w, c'.Applied l n w) ∧
    (∀ m n k, c.writes[m]? = some k → k.phase = .returned → c.writes.length ≤ n →
      m ∈ c'.order → n ∈ c'.order → Precedes c'.order m n) ∧
    ∀ x, c'.content x = newest c'.payload c'.order.reverse x := by
  have hinv := Inv.new.of_run h
  have hinv' := hinv.of_run hrun
  refine ⟨hinv'.order_nodup,fun n => hinv'.mem_order_iff,
    fun m n k hm hret hn hm' hn' => hinv.precedes_order hrun hm hret hn hm' hn',fun x => ?_⟩
  rw [Config.order,List.reverse_flatMap,newest_flatMap,Config.content]
  exact newest_congr fun l _ => hinv'.held_eq l x

/-- The second write is refused behind its first block. -/
theorem writes_take_effect_in_order_of_rotation : ∃ c c' : Config ℕ,
    Run sampleLogs 512 (fun _ => True) .new c ∧ Run sampleLogs 512 (fun _ => True) c c' ∧
      c'.order = [0,1] ∧ Precedes c'.order 0 1 ∧ c'.content 0 = some 6 ∧ c'.content 1 = none ∧
      ∀ x, c'.content x = newest c'.payload [1,0] x := by
  obtain ⟨c,c',hc,hafter,hphases,hview⟩ := exists_run rotation secondWrite
    (f := fun c => c.writes.map (·.phase)) (g := fun c => (c.order,c.content 0,c.content 1))
    (x := [.returned]) (y := ([0,1],some 6,none)) (by decide +kernel) (by decide +kernel)
  obtain ⟨horder,hview⟩ := Prod.mk.inj hview
  obtain ⟨hfirst,hsecond⟩ := Prod.mk.inj hview
  have hrun := run_of_after (P := fun _ => True) (fun _ _ => trivial) hafter
  obtain ⟨-,-,hprecedes,hnewest⟩ := writes_take_effect_in_order hc hrun
  have hlen : c.writes.length = 1 := by
    rw [← List.length_map (f := fun k => k.phase),hphases]
    rfl
  obtain ⟨k,hk⟩ := List.length_eq_one_iff.mp hlen
  refine ⟨c,c',hc,hrun,horder,hprecedes 0 1 k (by rw [hk]; rfl) ?_ (by omega) (by simp [horder])
    (by simp [horder]),hfirst,hsecond,fun x => ?_⟩
  · rw [hk] at hphases
    exact (List.cons.inj hphases).1
  · rw [hnewest x,horder]
    rfl

end TrackerWriter
end Logblock
