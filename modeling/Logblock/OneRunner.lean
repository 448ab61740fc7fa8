import Logblock.Transition

/-! The runner of `internal/util`, which calls a function `f` in one goroutine at a time. A step is
a critical section of the lock, or the begin or the end of a call of `f`. -/
namespace Logblock
namespace OneRunner

open Loop Transition

/-- Where a loop of `do` is: before its critical section, before or in a call of `f`, or behind
the `return`. -/
inductive LoopPhase
  | looking
  | calling
  | inF
  | stopped
  deriving DecidableEq, Repr

/-- The loop has not decided to stop. -/
def LoopPhase.live : LoopPhase → Bool
  | .stopped => false
  | _ => true

/-- Where a call of `Wait` is: asleep on the condition, on its way back to the lock, or behind
the `return`. -/
inductive WaitPhase
  | asleep
  | woken
  | returned
  deriving DecidableEq, Repr

def WaitPhase.broadcast : WaitPhase → WaitPhase
  | .asleep => .woken
  | ph => ph

/-- The flags of a runner, its loops and the calls of `Wait` in the order in which they began. -/
structure Config where
  running : Bool
  run : Bool
  loops : List LoopPhase
  waits : List WaitPhase

inductive Action
  | go
  | run
  | look (n : ℕ)
  | beginF (n : ℕ)
  | endF (n : ℕ)
  | wait
  | wake (n : ℕ)

/-- The steps of the loops. -/
def Action.ofLoop : Action → Prop
  | .look _ | .beginF _ | .endF _ => True
  | _ => False

/-- A call of `Go` or `Run` is one more request, and a call of `f` serves all that came before. -/
def Action.count (n : ℕ) : Action → ℕ
  | .go | .run => n+1
  | .beginF _ => 0
  | _ => n

/-- The calls of `Go` and `Run` in a run since `f` last began. -/
def outstanding (as : List Action) : ℕ := as.foldl Action.count 0

namespace Config

def new : Config := ⟨false,false,[],[]⟩

/-- The critical section of `Go` and of `Run`. The loop that it starts runs in a goroutine of its
own for `Go`, and in the caller for `Run`. -/
def request (c : Config) : Config :=
  if c.running then {c with run := true}
  else {c with run := true, running := true, loops := c.loops++[.looking]}

def setLoop (c : Config) (n : ℕ) (phase : LoopPhase) : Config :=
  {c with loops := c.loops.modify n fun _ => phase}

/-- The critical section of `do`. -/
def look (c : Config) (n : ℕ) : Config :=
  if c.run then {c.setLoop n .calling with run := false}
  else {c.setLoop n .stopped with
    run := false
    running := false
    waits := c.waits.map WaitPhase.broadcast}

/-- A call of `Wait` goes on with the lock held. -/
def waitPhase (c : Config) : WaitPhase := if c.running then .asleep else .returned

def step (c : Config) : Action → Exec (Option Config)
  | .go => .ok (some c.request)
  | .run => .ok (some c.request)
  | .look n =>
    match c.loops[n]? with
    | some .looking => .ok (some (c.look n))
    | _ => .ok none
  | .beginF n =>
    match c.loops[n]? with
    | some .calling => .ok (some (c.setLoop n .inF))
    | _ => .ok none
  | .endF n =>
    match c.loops[n]? with
    | some .inF => .ok (some (c.setLoop n .looking))
    | _ => .ok none
  | .wait => .ok (some {c with waits := c.waits++[c.waitPhase]})
  | .wake n =>
    match c.waits[n]? with
    | some .woken => .ok (some {c with waits := c.waits.modify n fun _ => c.waitPhase})
    | _ => .ok none

/-- What each step does. -/
inductive Moves (c : Config) : Action → Config → Prop
  | go : Moves c .go c.request
  | run : Moves c .run c.request
  | look {n : ℕ} (hn : c.loops[n]? = some .looking) : Moves c (.look n) (c.look n)
  | beginF {n : ℕ} (hn : c.loops[n]? = some .calling) : Moves c (.beginF n) (c.setLoop n .inF)
  | endF {n : ℕ} (hn : c.loops[n]? = some .inF) : Moves c (.endF n) (c.setLoop n .looking)
  | wait : Moves c .wait {c with waits := c.waits++[c.waitPhase]}
  | wake {n : ℕ} (hn : c.waits[n]? = some .woken) :
      Moves c (.wake n) {c with waits := c.waits.modify n fun _ => c.waitPhase}

theorem step_moves {c c' : Config} {a : Action} (hs : c.step a = .ok (some c')) :
    Moves c a c' := by
  cases a with
  | go =>
    cases hs
    exact .go
  | run =>
    cases hs
    exact .run
  | look n =>
    simp only [step] at hs
    split at hs
    · rename_i hn
      cases hs
      exact .look hn
    · cases hs
  | beginF n =>
    simp only [step] at hs
    split at hs
    · rename_i hn
      cases hs
      exact .beginF hn
    · cases hs
  | endF n =>
    simp only [step] at hs
    split at hs
    · rename_i hn
      cases hs
      exact .endF hn
    · cases hs
  | wait =>
    cases hs
    exact .wait
  | wake n =>
    simp only [step] at hs
    split at hs
    · rename_i hn
      cases hs
      exact .wake hn
    · cases hs

end Config

/-- After a run with `k` requests outstanding: `running` says that there is a loop, the requests wait
for it, and so do the calls of `Wait`. -/
structure Inv (k : ℕ) (c : Config) : Prop where
  live : c.loops.countP LoopPhase.live = c.running.toNat
  run : c.run = true → c.running = true
  request : 0 < k → c.run = true ∨ .calling ∈ c.loops
  asleep : .asleep ∈ c.waits → c.running = true

namespace Inv

variable {k : ℕ} {c c' : Config}

theorem new : Inv 0 Config.new := by
  constructor <;> simp [Config.new]

theorem live_le (h : Inv k c) : c.loops.countP LoopPhase.live ≤ 1 := by
  rw [h.live]
  exact Bool.toNat_le _

/-- A loop that has not decided to stop is the only one. -/
theorem loop_unique (h : Inv k c) {m n : ℕ} {x y : LoopPhase} (hm : c.loops[m]? = some x)
    (hn : c.loops[n]? = some y) (hx : x.live = true) (hy : y.live = true) : m = n :=
  eq_of_countP_le_one h.live_le hm hn hx hy

theorem running_of_live (h : Inv k c) {n : ℕ} {x : LoopPhase} (hn : c.loops[n]? = some x)
    (hx : x.live = true) : c.running = true := by
  have hpos : 0 < c.loops.countP LoopPhase.live :=
    List.countP_pos_iff.mpr ⟨x,List.mem_of_getElem? hn,hx⟩
  rw [h.live] at hpos
  cases hr : c.running
  · simp [hr] at hpos
  · rfl

theorem move_request (h : Inv k c) : Inv (k+1) c.request := by
  unfold Config.request
  split_ifs with hr
  · exact ⟨h.live,fun _ => hr,fun _ => .inl rfl,h.asleep⟩
  · refine ⟨?_,fun _ => rfl,fun _ => .inl rfl,fun _ => rfl⟩
    have hlive := h.live
    rw [Bool.not_eq_true] at hr
    rw [hr] at hlive
    rw [List.countP_append,hlive]
    rfl

theorem live_setLoop {n : ℕ} {x : LoopPhase} (hn : c.loops[n]? = some x) (phase : LoopPhase) :
    (c.setLoop n phase).loops.countP LoopPhase.live+x.live.toNat =
      c.loops.countP LoopPhase.live+phase.live.toNat :=
  countP_modify (f := fun _ => phase) LoopPhase.live hn

theorem move_look (h : Inv k c) {n : ℕ} (hn : c.loops[n]? = some .looking) : Inv k (c.look n) := by
  have hlive := h.live
  have hrunning := h.running_of_live hn rfl
  rw [hrunning] at hlive
  unfold Config.look
  split_ifs with hrun
  · have hmove := live_setLoop hn .calling
    refine ⟨?_,fun he => (by cases he),fun _ => .inr ?_,h.asleep⟩
    · simp only [LoopPhase.live,Bool.toNat_true] at hmove hlive
      show (c.setLoop n .calling).loops.countP LoopPhase.live = c.running.toNat
      rw [hrunning,Bool.toNat_true]
      omega
    · exact List.mem_of_getElem? (getElem?_modify_self hn)
  · have hmove := live_setLoop hn .stopped
    refine ⟨?_,fun he => (by cases he),fun hout => ?_,fun hasleep => ?_⟩
    · simp only [LoopPhase.live,Bool.toNat_true,Bool.toNat_false] at hmove hlive ⊢
      omega
    · -- a loop that is about to call `f` would be a second one
      rcases h.request hout with hr | hcalling
      · exact absurd hr hrun
      · obtain ⟨m,hm⟩ := List.mem_iff_getElem?.mp hcalling
        obtain rfl := h.loop_unique hm hn rfl rfl
        rw [hm] at hn
        cases hn
    · obtain ⟨ph,-,hph⟩ := List.mem_map.mp hasleep
      cases ph <;> cases hph

theorem move_beginF (h : Inv k c) {n : ℕ} (hn : c.loops[n]? = some .calling) :
    Inv 0 (c.setLoop n .inF) := by
  have hmove := live_setLoop hn .inF
  exact ⟨(Nat.add_right_cancel hmove).trans h.live,h.run,
    fun hout => absurd hout (lt_irrefl 0),h.asleep⟩

theorem move_endF (h : Inv k c) {n : ℕ} (hn : c.loops[n]? = some .inF) :
    Inv k (c.setLoop n .looking) := by
  have hmove := live_setLoop hn .looking
  refine ⟨(Nat.add_right_cancel hmove).trans h.live,h.run,fun hout => ?_,h.asleep⟩
  rcases h.request hout with hr | hcalling
  · exact .inl hr
  · obtain ⟨m,hm⟩ := List.mem_iff_getElem?.mp hcalling
    obtain rfl := h.loop_unique hm hn rfl rfl
    rw [hm] at hn
    cases hn

theorem running_of_waitPhase (h : c.waitPhase = .asleep) : c.running = true := by
  unfold Config.waitPhase at h
  split_ifs at h with hr
  exact hr

theorem move (h : Inv k c) {a : Action} (hs : c.step a = .ok (some c')) : Inv (a.count k) c' := by
  cases Config.step_moves hs with
  | go => exact h.move_request
  | run => exact h.move_request
  | look hn => exact h.move_look hn
  | beginF hn => exact h.move_beginF hn
  | endF hn => exact h.move_endF hn
  | wait =>
    refine ⟨h.live,h.run,h.request,fun hasleep => ?_⟩
    rcases List.mem_append.mp hasleep with hold | hnew
    · exact h.asleep hold
    · exact running_of_waitPhase (List.mem_singleton.mp hnew).symm
  | wake hn =>
    refine ⟨h.live,h.run,h.request,fun hasleep => ?_⟩
    obtain ⟨m,x,hx,he⟩ := exists_of_mem_modify hasleep
    split_ifs at he with hnm
    · exact running_of_waitPhase he.symm
    · subst he
      exact h.asleep (List.mem_of_getElem? hx)

theorem of_after {as : List Action} (h : Inv k c)
    (hrun : after Config.step c as = .ok (some c')) : Inv (as.foldl Action.count k) c' := by
  induction as generalizing k c with
  | nil =>
    cases hrun
    exact h
  | cons a as ih =>
    obtain ⟨d,hs,hrun⟩ := exists_of_after_cons hrun
    exact ih (h.move hs) hrun

end Inv

/-- No call of `f` is in progress, and none is asked for. -/
def Config.Quiet (c : Config) : Prop := .inF ∉ c.loops ∧ c.run = false

/-- A step in which a call of `Wait` returns. -/
inductive Config.WaitReturns (c : Config) : Action → Config → Prop
  | wait {c' : Config} (hs : c.step .wait = .ok (some c'))
      (hreturned : c'.waits[c.waits.length]? = some .returned) : WaitReturns c .wait c'
  | wake {c' : Config} {n : ℕ} (hs : c.step (.wake n) = .ok (some c'))
      (hreturned : c'.waits[n]? = some .returned) : WaitReturns c (.wake n) c'

/-- The loops alone get to the begin of a call of `f`. -/
def Config.Serves (c : Config) : Prop := ∃ as n c', (∀ a ∈ as, a.ofLoop) ∧
  after Config.step c (as++[.beginF n]) = .ok (some c') ∧ c'.loops[n]? = some .inF

section Requests

variable {k : ℕ} {c c' : Config}

theorem serves_of_calling {n : ℕ} (hn : c.loops[n]? = some .calling) : c.Serves := by
  refine ⟨[],n,c.setLoop n .inF,by simp,?_,getElem?_modify_self hn⟩
  rw [List.nil_append,after]
  simp only [Config.step,hn]
  rfl

/-- A step of a loop before the others. -/
theorem Config.Serves.head {a : Action} (ha : a.ofLoop) (hs : c.step a = .ok (some c'))
    (h : c'.Serves) : c.Serves := by
  obtain ⟨as,n,d,has,hrun,hd⟩ := h
  refine ⟨a::as,n,d,List.forall_mem_cons.mpr ⟨ha,has⟩,?_,hd⟩
  rw [List.cons_append,after,hs]
  exact hrun

theorem serves_of_looking {n : ℕ} (hn : c.loops[n]? = some .looking) (hrun : c.run = true) :
    c.Serves := by
  have hs : c.step (.look n) = .ok (some {c.setLoop n .calling with run := false}) := by
    simp only [Config.step,hn,Config.look,hrun,if_true]
  exact .head (a := .look n) trivial hs (serves_of_calling (n := n) (getElem?_modify_self hn))

/-- The loop that exists begins a call of `f` for every request. -/
theorem Inv.serves (h : Inv k c) (hk : 0 < k) : c.Serves := by
  rcases h.request hk with hrun | hcalling
  · have hpos : 0 < c.loops.countP LoopPhase.live := by
      rw [h.live,h.run hrun]
      exact Nat.one_pos
    obtain ⟨x,hx,hlive⟩ := List.countP_pos_iff.mp hpos
    obtain ⟨n,hn⟩ := List.mem_iff_getElem?.mp hx
    cases x with
    | looking => exact serves_of_looking hn hrun
    | calling => exact serves_of_calling hn
    | inF =>
      have hs : c.step (.endF n) = .ok (some (c.setLoop n .looking)) := by
        simp only [Config.step,hn]
      exact .head (a := .endF n) trivial hs
        (serves_of_looking (n := n) (getElem?_modify_self hn) hrun)
    | stopped => cases hlive
  · obtain ⟨n,hn⟩ := List.mem_iff_getElem?.mp hcalling
    exact serves_of_calling hn

theorem Inv.quiet (h : Inv k c) (hr : c.running = false) : c.Quiet ∧ k = 0 := by
  have hlive := h.live
  rw [hr,Bool.toNat_false,List.countP_eq_zero] at hlive
  have hrun : c.run = false := by
    cases he : c.run
    · rfl
    · rw [h.run he] at hr
      cases hr
  refine ⟨⟨fun hmem => hlive _ hmem rfl,hrun⟩,?_⟩
  by_contra hk
  rcases h.request (Nat.pos_of_ne_zero hk) with he | hcalling
  · rw [hrun] at he
    cases he
  · exact hlive _ hcalling rfl

theorem Config.WaitReturns.step_eq {a : Action} (h : c.WaitReturns a c') :
    c.step a = .ok (some c') := by
  cases h with
  | wait hs _ => exact hs
  | wake hs _ => exact hs

theorem Config.WaitReturns.not_running {a : Action} (h : c.WaitReturns a c') :
    c'.running = false := by
  have hphase : c.waitPhase = .returned → c.running = false := by
    intro he
    unfold Config.waitPhase at he
    split_ifs at he with hr
    exact Bool.not_eq_true _ ▸ hr
  cases h with
  | wait hs hreturned =>
    cases Config.step_moves hs
    rw [List.getElem?_concat_length,Option.some.injEq] at hreturned
    exact hphase hreturned
  | wake hs hreturned =>
    cases Config.step_moves hs with
    | wake hn =>
      rw [getElem?_modify_self hn,Option.some.injEq] at hreturned
      exact hphase hreturned

end Requests

/-- At most one call of `f` is in progress. While the run flag is set there is exactly one loop
that has not decided to stop, and no request is dropped: while calls of `Go` or `Run` have been made
since `f` last began, the flag is set or the loop is about to call `f`, and the steps of the loop
alone get to that call. When `Wait` returns there is no call and no request. -/
theorem one_runner {as : List Action} {c : Config}
    (h : after Config.step .new as = .ok (some c)) :
    c.loops.count .inF ≤ 1 ∧
    (c.run = true → c.loops.countP LoopPhase.live = 1) ∧
    (0 < outstanding as → (c.run = true ∨ .calling ∈ c.loops) ∧ c.Serves) ∧
    ∀ a c', c.WaitReturns a c' → c'.Quiet ∧ outstanding (as++[a]) = 0 := by
  have hinv : Inv (outstanding as) c := Inv.new.of_after h
  refine ⟨?_,fun hrun => ?_,fun hk => ⟨hinv.request hk,hinv.serves hk⟩,fun a c' hreturns => ?_⟩
  · refine le_trans (List.countP_mono_left fun ph _ hph => ?_) hinv.live_le
    rw [beq_iff_eq] at hph
    subst hph
    rfl
  · rw [hinv.live,hinv.run hrun]
    rfl
  · rw [outstanding,List.foldl_append]
    exact (hinv.move hreturns.step_eq).quiet hreturns.not_running

/-- A request arrives while `f` runs for another one, and a call of `Wait` goes to sleep. -/
def requestDuringCall : List Action := [.go,.look 0,.beginF 0,.run,.wait]

/-- The loop goes on until it stops and wakes the call. -/
def untilStopped : List Action := [.endF 0,.look 0,.beginF 0,.endF 0,.look 0]

theorem one_runner_during_call : ∃ c d e,
    after Config.step .new requestDuringCall = .ok (some c) ∧ outstanding requestDuringCall = 1 ∧
    c.loops = [.inF] ∧ c.run = true ∧ c.waits = [.asleep] ∧ c.Serves ∧
    after Config.step .new (requestDuringCall++untilStopped) = .ok (some d) ∧
    d.WaitReturns (.wake 0) e ∧ e.Quiet := by
  have hc : after Config.step .new requestDuringCall =
      .ok (some ⟨true,true,[.inF],[.asleep]⟩) := rfl
  have hd : after Config.step .new (requestDuringCall++untilStopped) =
      .ok (some ⟨false,false,[.stopped],[.woken]⟩) := rfl
  have hreturns : Config.WaitReturns ⟨false,false,[.stopped],[.woken]⟩ (.wake 0)
      ⟨false,false,[.stopped],[.returned]⟩ := .wake rfl rfl
  exact ⟨_,_,_,hc,rfl,rfl,rfl,rfl,((one_runner hc).2.2.1 Nat.one_pos).2,hd,hreturns,
    ((one_runner hd).2.2.2 _ _ hreturns).1⟩

end OneRunner
end Logblock
