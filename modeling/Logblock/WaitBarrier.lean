import Logblock.Transition

/-! The wait barrier of `internal/util`. A context is counted in the wait group that was current
when it started. A call of `Barrier` puts a new group in the place of the current one and waits for
the old one, while it is itself counted in the new one, so that the calls form a chain. A step is a
critical section of the lock, a call of the unlocker, or one operation of a wait group. -/
namespace Logblock
namespace WaitBarrier

open Loop Transition Relation

/-- `WaitBarrierContext`: the group it is counted in, and whether `Done` was called. -/
structure Context where
  wg : ℕ
  done : Bool
  deriving DecidableEq, Repr

inductive Phase
  | unlocking
  | waiting
  | finishing
  | returned
  deriving DecidableEq, Repr

/-- A call of `BarrierWithUnlock` that has had the lock: the groups `wg` and `barrierWg`, unless
there was nothing to wait for, and the number of contexts that were started before. -/
structure Call where
  groups : Option (ℕ × ℕ)
  before : ℕ
  phase : Phase
  deriving DecidableEq, Repr

/-- The call is counted in the group `g`. -/
def Call.counted (g : ℕ) (k : Call) : Bool :=
  decide (k.groups.map Prod.snd = some g) && decide (k.phase ≠ .returned)

/-- The context is counted in the group `g`. -/
def Context.counted (g : ℕ) (x : Context) : Bool := decide (x.wg = g) && !x.done

/-- A barrier with its wait groups by address, and the contexts and the calls in the order in
which they took the lock. -/
structure Config where
  wg : Option ℕ
  counter : ℕ → ℕ
  allocated : ℕ
  contexts : List Context
  calls : List Call

inductive Action
  | start
  | done (i : ℕ)
  | barrier (u : Bool)
  | unlock (n : ℕ)
  | wait (n : ℕ)
  | barrierDone (n : ℕ)

/-- The steps of the calls up to the `n`-th, once they have had the lock. -/
def Action.ofCalls (n : ℕ) : Action → Prop
  | .unlock m | .wait m | .barrierDone m => m ≤ n
  | _ => False

/-- The steps of a call that has had the lock. -/
def Action.internal : Action → Bool
  | .unlock _ | .wait _ | .barrierDone _ => true
  | _ => false

namespace Config

def new : Config := ⟨none,fun _ => 0,0,[],[]⟩

/-- A new group with `n` added to it becomes the current one. -/
def newGroup (c : Config) (n : ℕ) : Config :=
  {c with
    wg := some c.allocated
    counter := Function.update c.counter c.allocated n
    allocated := c.allocated+1}

def addContext (c : Config) (wg : ℕ) : Config :=
  {c with
    counter := Function.update c.counter wg (c.counter wg+1)
    contexts := c.contexts++[⟨wg,false⟩]}

def start (c : Config) : Config :=
  match c.wg with
  | none => (c.newGroup 0).addContext c.allocated
  | some wg => c.addContext wg

/-- `Done` of the group `wg`. -/
def groupDone (c : Config) (wg : ℕ) : Exec Config :=
  match c.counter wg with
  | 0 => .error (.panic "sync: negative WaitGroup counter")
  | n+1 => .ok {c with counter := Function.update c.counter wg n}

def setDone (c : Config) (i : ℕ) : Config :=
  {c with contexts := c.contexts.modify i fun x => {x with done := true}}

def setPhase (c : Config) (n : ℕ) (phase : Phase) : Config :=
  {c with calls := c.calls.modify n fun k => {k with phase := phase}}

/-- The part of `BarrierWithUnlock` under the lock; `u` tells whether there is an unlocker. -/
def barrierWithUnlock (c : Config) (u : Bool) : Config :=
  match c.wg with
  | none => {c with
      calls := c.calls++[⟨none,c.contexts.length,if u then .unlocking else .returned⟩]}
  | some wg => {c.newGroup 1 with
      calls := c.calls++[⟨some (wg,c.allocated),c.contexts.length,
        if u then .unlocking else .waiting⟩]}

def step (c : Config) : Action → Exec (Option Config)
  | .start => .ok (some c.start)
  | .done i =>
    match c.contexts[i]? with
    | some ⟨wg,false⟩ => do
      let c' ← c.groupDone wg
      .ok (some (c'.setDone i))
    | _ => .ok none
  | .barrier u => .ok (some (c.barrierWithUnlock u))
  | .unlock n =>
    match c.calls[n]? with
    | some ⟨none,_,.unlocking⟩ => .ok (some (c.setPhase n .returned))
    | some ⟨some _,_,.unlocking⟩ => .ok (some (c.setPhase n .waiting))
    | _ => .ok none
  | .wait n =>
    match c.calls[n]? with
    | some ⟨some (wg,_),_,.waiting⟩ =>
      if c.counter wg = 0 then .ok (some (c.setPhase n .finishing)) else .ok none
    | _ => .ok none
  | .barrierDone n =>
    match c.calls[n]? with
    | some ⟨some (_,barrierWg),_,.finishing⟩ => do
      let c' ← c.groupDone barrierWg
      .ok (some (c'.setPhase n .returned))
    | _ => .ok none

/-- What each step does. -/
inductive Moves (c : Config) : Action → Config → Prop
  | start : Moves c .start c.start
  | done {i wg n : ℕ} (hi : c.contexts[i]? = some ⟨wg,false⟩) (hn : c.counter wg = n+1) :
      Moves c (.done i) ({c with counter := Function.update c.counter wg n}.setDone i)
  | barrier (u : Bool) : Moves c (.barrier u) (c.barrierWithUnlock u)
  | unlock {n b : ℕ} {g : Option (ℕ × ℕ)} (hn : c.calls[n]? = some ⟨g,b,.unlocking⟩) :
      Moves c (.unlock n) (c.setPhase n (if g = none then .returned else .waiting))
  | wait {n wg barrierWg b : ℕ} (hn : c.calls[n]? = some ⟨some (wg,barrierWg),b,.waiting⟩)
      (hzero : c.counter wg = 0) : Moves c (.wait n) (c.setPhase n .finishing)
  | barrierDone {n wg barrierWg b m : ℕ}
      (hn : c.calls[n]? = some ⟨some (wg,barrierWg),b,.finishing⟩)
      (hm : c.counter barrierWg = m+1) : Moves c (.barrierDone n)
        ({c with counter := Function.update c.counter barrierWg m}.setPhase n .returned)

theorem groupDone_ok {c c' : Config} {wg : ℕ} (h : c.groupDone wg = .ok c') :
    ∃ n, c.counter wg = n+1 ∧ c' = {c with counter := Function.update c.counter wg n} := by
  unfold groupDone at h
  split at h
  · cases h
  · rename_i n hn
    cases h
    exact ⟨n,hn,rfl⟩

theorem step_moves {c c' : Config} {a : Action} (hs : c.step a = .ok (some c')) :
    Moves c a c' := by
  cases a with
  | start =>
    cases hs
    exact .start
  | done i =>
    simp only [step] at hs
    split at hs
    · rename_i wg hi
      obtain ⟨c₁,hc₁,hs⟩ := exists_bind hs
      obtain ⟨n,hn,rfl⟩ := groupDone_ok hc₁
      cases hs
      exact .done hi hn
    · cases hs
  | barrier u =>
    cases hs
    exact .barrier u
  | unlock n =>
    simp only [step] at hs
    split at hs
    · rename_i b hn
      cases hs
      exact .unlock hn
    · rename_i g b hn
      cases hs
      exact .unlock hn
    · cases hs
  | wait n =>
    simp only [step] at hs
    split at hs
    · rename_i wg barrierWg b hn
      split_ifs at hs with hzero
      · cases hs
        exact .wait hn hzero
      · cases hs
    · cases hs
  | barrierDone n =>
    simp only [step] at hs
    split at hs
    · rename_i wg barrierWg b hn
      obtain ⟨c₁,hc₁,hs⟩ := exists_bind hs
      obtain ⟨m,hm,rfl⟩ := groupDone_ok hc₁
      cases hs
      exact .barrierDone hn hm
    · cases hs

end Config

/-- The groups are numbered in the order of their creation. A call that swaps waits for a group
`wg` and is counted in the group `wg+1`; the contexts of the groups up to `wg` are those that were
started before it, and they are done when its wait is over. -/
structure Inv (c : Config) : Prop where
  current : ∀ wg, c.wg = some wg → c.allocated = wg+1
  fresh : c.wg = none → c.allocated = 0
  group_lt : ∀ x ∈ c.contexts, x.wg < c.allocated
  counter : ∀ g < c.allocated, c.counter g =
    c.contexts.countP (Context.counted g)+c.calls.countP (Call.counted g)
  groups : ∀ k ∈ c.calls, ∀ wg barrierWg, k.groups = some (wg,barrierWg) →
    barrierWg = wg+1 ∧ barrierWg < c.allocated
  swapped : ∀ g, g+1 < c.allocated →
    ∃ (n : ℕ) (k : Call), c.calls[n]? = some k ∧ k.groups = some (g,g+1)
  sorted : ∀ (m n : ℕ) (k k' : Call), m < n → c.calls[m]? = some k → c.calls[n]? = some k' →
    ∀ g g', k.groups = some g → k'.groups = some g' → g.1 < g'.1
  before_le : ∀ k ∈ c.calls, k.before ≤ c.contexts.length
  before : ∀ k ∈ c.calls, ∀ wg barrierWg, k.groups = some (wg,barrierWg) →
    ∀ (i : ℕ) (x : Context), c.contexts[i]? = some x → (i < k.before ↔ x.wg ≤ wg)
  idle : ∀ k ∈ c.calls, k.groups = none →
    k.before = 0 ∧ (k.phase = .unlocking ∨ k.phase = .returned)
  drained : ∀ k ∈ c.calls, k.phase = .finishing ∨ k.phase = .returned →
    ∀ wg barrierWg, k.groups = some (wg,barrierWg) → ∀ x ∈ c.contexts, x.wg ≤ wg → x.done = true

namespace Inv

variable {c c' : Config}

theorem new : Inv Config.new := by
  constructor <;> simp [Config.new]

theorem not_counted {g : ℕ} {x : Context} (hx : x.wg ≠ g) : Context.counted g x = false := by
  simp [Context.counted,hx]

/-- The groups that a call waits for are empty when its own one is: the call before it has
returned. -/
theorem drained_of_zero (h : Inv c) {wg : ℕ} (hwg : wg < c.allocated) (hzero : c.counter wg = 0)
    {x : Context} (hx : x ∈ c.contexts) (hle : x.wg ≤ wg) : x.done = true := by
  have hcount := h.counter wg hwg
  rw [hzero] at hcount
  have hcontexts := List.countP_eq_zero.mp (show c.contexts.countP (Context.counted wg) = 0 by omega)
  have hcalls := List.countP_eq_zero.mp (show c.calls.countP (Call.counted wg) = 0 by omega)
  rcases Nat.lt_or_eq_of_le hle with hlt | heq
  · obtain ⟨g,rfl⟩ : ∃ g, wg = g+1 := ⟨wg-1,by omega⟩
    obtain ⟨n,k,hn,hk⟩ := h.swapped g hwg
    have hmem := List.mem_of_getElem? hn
    have hreturned : k.phase = .returned := by
      have := hcalls k hmem
      simpa [Call.counted,hk] using this
    exact h.drained k hmem (.inr hreturned) g (g+1) hk x hx (by omega)
  · simpa [Context.counted,heq] using hcontexts x hx

theorem newGroup (h : Inv c) (hwg : c.wg = none) : Inv (c.newGroup 0) := by
  have hzero := h.fresh hwg
  have hcontexts : c.contexts = [] :=
    List.eq_nil_iff_forall_not_mem.mpr fun x hx => by
      have := h.group_lt x hx
      omega
  have hgroups : ∀ k ∈ c.calls, ∀ wg barrierWg, k.groups ≠ some (wg,barrierWg) :=
    fun k hk wg barrierWg he => by
      have := (h.groups k hk wg barrierWg he).2
      omega
  constructor
  case current =>
    intro wg he
    cases he
    rfl
  case fresh => exact fun he => (by cases he)
  case group_lt => simp [Config.newGroup,hcontexts]
  case counter =>
    intro g hg
    obtain rfl : g = 0 := by
      simp only [Config.newGroup,hzero] at hg
      omega
    have hnone : c.calls.countP (Call.counted 0) = 0 := by
      rw [List.countP_eq_zero]
      intro k hk hcounted
      simp only [Call.counted,Bool.and_eq_true,decide_eq_true_eq,Option.map_eq_some_iff] at hcounted
      obtain ⟨⟨⟨wg,barrierWg⟩,he,-⟩,-⟩ := hcounted
      exact hgroups k hk wg barrierWg he
    simp [Config.newGroup,hzero,hcontexts,hnone]
  case groups => exact fun k hk wg barrierWg he => absurd he (hgroups k hk wg barrierWg)
  case swapped =>
    intro g hg
    simp only [Config.newGroup,hzero] at hg
    omega
  case sorted => exact h.sorted
  case before_le => exact h.before_le
  case before => exact h.before
  case idle => exact h.idle
  case drained => exact h.drained

theorem addContext (h : Inv c) {wg : ℕ} (hwg : c.wg = some wg) : Inv (c.addContext wg) := by
  have hcurrent := h.current wg hwg
  constructor
  case current => exact h.current
  case fresh => exact h.fresh
  case group_lt =>
    intro x hx
    rcases List.mem_append.mp hx with hx | hx
    · exact h.group_lt x hx
    · obtain rfl := List.mem_singleton.mp hx
      show wg < c.allocated
      omega
  case counter =>
    intro g hg
    have hcount := h.counter g hg
    by_cases hgw : g = wg
    · subst hgw
      simp only [Config.addContext,Function.update_self,List.countP_append,hcount]
      simp [Context.counted]
      omega
    · have hne : Context.counted g ⟨wg,false⟩ = false := not_counted fun he => hgw he.symm
      simp only [Config.addContext,Function.update_of_ne hgw,List.countP_append,hcount]
      simp [hne]
  case groups => exact h.groups
  case swapped => exact h.swapped
  case sorted => exact h.sorted
  case before_le =>
    intro k hk
    have := h.before_le k hk
    simp only [Config.addContext,List.length_append]
    omega
  case before =>
    intro k hk w barrierWg he i x hx
    simp only [Config.addContext,List.getElem?_append] at hx
    split_ifs at hx with hi
    · exact h.before k hk w barrierWg he i x hx
    · -- the new context is behind every call, and in a later group than all of them wait for
      obtain ⟨hi',rfl⟩ := List.getElem?_eq_some_iff.mp hx
      have hlen := h.before_le k hk
      have hlt := h.groups k hk w barrierWg he
      simp only [List.getElem_singleton]
      omega
  case idle => exact h.idle
  case drained =>
    intro k hk hph w barrierWg he x hx hle
    rcases List.mem_append.mp hx with hx | hx
    · exact h.drained k hk hph w barrierWg he x hx hle
    · obtain rfl := List.mem_singleton.mp hx
      have hlt := h.groups k hk w barrierWg he
      simp only at hle
      omega

theorem start (h : Inv c) : Inv c.start := by
  unfold Config.start
  split
  · rename_i hwg
    exact (h.newGroup hwg).addContext rfl
  · rename_i wg hwg
    exact h.addContext hwg

theorem done (h : Inv c) {i wg n : ℕ} (hi : c.contexts[i]? = some ⟨wg,false⟩)
    (hn : c.counter wg = n+1) :
    Inv ({c with counter := Function.update c.counter wg n}.setDone i) := by
  have hmod : ∀ (j : ℕ) (y : Context),
      (c.contexts.modify i fun x => {x with done := true})[j]? = some y →
      ∃ x, c.contexts[j]? = some x ∧ y.wg = x.wg ∧ (x.done = true → y.done = true) := by
    intro j y hy
    obtain ⟨x,hx,rfl⟩ := exists_of_modify hy
    refine ⟨x,hx,?_,?_⟩
    · split_ifs <;> rfl
    · split_ifs
      · exact fun _ => rfl
      · exact id
  have hmem : ∀ y ∈ c.contexts.modify i fun x => {x with done := true},
      ∃ x ∈ c.contexts, y.wg = x.wg ∧ (x.done = true → y.done = true) := by
    intro y hy
    obtain ⟨j,hj⟩ := List.mem_iff_getElem?.mp hy
    obtain ⟨x,hx,hwg,hdone⟩ := hmod j y hj
    exact ⟨x,List.mem_of_getElem? hx,hwg,hdone⟩
  constructor
  case current => exact h.current
  case fresh => exact h.fresh
  case group_lt =>
    intro y hy
    obtain ⟨x,hx,hwg,-⟩ := hmem y hy
    rw [hwg]
    exact h.group_lt x hx
  case counter =>
    intro g hg
    have hcount := h.counter g hg
    have hmove := countP_modify (f := fun x : Context => {x with done := true})
      (Context.counted g) hi
    simp only [Config.setDone]
    by_cases hgw : g = wg
    · subst hgw
      rw [Function.update_self]
      simp [Context.counted] at hmove hcount ⊢
      omega
    · rw [Function.update_of_ne hgw,hcount]
      rw [not_counted fun he => hgw he.symm,not_counted fun he => hgw he.symm] at hmove
      simp only [Bool.toNat_false] at hmove
      omega
  case groups => exact h.groups
  case swapped => exact h.swapped
  case sorted => exact h.sorted
  case before_le =>
    intro k hk
    simp only [Config.setDone,List.length_modify]
    exact h.before_le k hk
  case before =>
    intro k hk w barrierWg he j y hy
    obtain ⟨x,hx,hwg,-⟩ := hmod j y hy
    rw [hwg]
    exact h.before k hk w barrierWg he j x hx
  case idle => exact h.idle
  case drained =>
    intro k hk hph w barrierWg he y hy hle
    obtain ⟨x,hx,hwg,hdone⟩ := hmem y hy
    exact hdone (h.drained k hk hph w barrierWg he x hx (hwg ▸ hle))

theorem barrier_idle (h : Inv c) (hwg : c.wg = none) {phase : Phase}
    (hphase : phase = .unlocking ∨ phase = .returned) :
    Inv {c with calls := c.calls++[⟨none,c.contexts.length,phase⟩]} := by
  have hcontexts : c.contexts.length = 0 :=
    List.length_eq_zero_iff.mpr (List.eq_nil_iff_forall_not_mem.mpr fun x hx => by
      have := h.group_lt x hx
      have := h.fresh hwg
      omega)
  have hcalls : ∀ k ∈ c.calls++[⟨none,c.contexts.length,phase⟩],
      k ∈ c.calls ∨ k.groups = none ∧ k.before = 0 ∧ k.phase = phase := by
    intro k hk
    rcases List.mem_append.mp hk with hk | hk
    · exact .inl hk
    · obtain rfl := List.mem_singleton.mp hk
      exact .inr ⟨rfl,hcontexts,rfl⟩
  have hidle : ∀ {k : Call} {g : ℕ × ℕ}, k.groups = none ∧ k.before = 0 ∧ k.phase = phase →
      k.groups ≠ some g :=
    fun hk he => by simp [hk.1] at he
  constructor
  case current => exact h.current
  case fresh => exact h.fresh
  case group_lt => exact h.group_lt
  case counter =>
    intro g hg
    rw [List.countP_append,h.counter g hg]
    simp [Call.counted]
  case groups =>
    intro k hk w barrierWg he
    rcases hcalls k hk with hk | hk
    · exact h.groups k hk w barrierWg he
    · exact absurd he (hidle hk)
  case swapped =>
    intro g hg
    have := h.fresh hwg
    simp only at hg
    omega
  case sorted =>
    intro m n k k' hmn hk hk' g g' hg hg'
    rcases hcalls k (List.mem_of_getElem? hk) with hmem | hmem
    · have := (h.groups k hmem g.1 g.2 hg).2
      have := h.fresh hwg
      omega
    · exact absurd hg (hidle hmem)
  case before_le =>
    intro k hk
    rcases hcalls k hk with hk | hk
    · exact h.before_le k hk
    · rw [hk.2.1]
      exact Nat.zero_le _
  case before =>
    intro k hk w barrierWg he
    rcases hcalls k hk with hk | hk
    · exact h.before k hk w barrierWg he
    · exact absurd he (hidle hk)
  case idle =>
    intro k hk he
    rcases hcalls k hk with hk | hk
    · exact h.idle k hk he
    · rw [hk.2.2]
      exact ⟨hk.2.1,hphase⟩
  case drained =>
    intro k hk hph w barrierWg he
    rcases hcalls k hk with hk | hk
    · exact h.drained k hk hph w barrierWg he
    · exact absurd he (hidle hk)

theorem barrier_swap (h : Inv c) {wg : ℕ} (hwg : c.wg = some wg) {phase : Phase}
    (hphase : phase = .unlocking ∨ phase = .waiting) : Inv {c.newGroup 1 with
      calls := c.calls++[⟨some (wg,c.allocated),c.contexts.length,phase⟩]} := by
  have hcurrent := h.current wg hwg
  have hcalls : ∀ k ∈ c.calls++[⟨some (wg,c.allocated),c.contexts.length,phase⟩],
      k ∈ c.calls ∨ k = ⟨some (wg,c.allocated),c.contexts.length,phase⟩ := by
    intro k hk
    rcases List.mem_append.mp hk with hk | hk
    · exact .inl hk
    · exact .inr (List.mem_singleton.mp hk)
  constructor
  case current =>
    intro w he
    cases he
    rfl
  case fresh => exact fun he => (by cases he)
  case group_lt => exact fun x hx => Nat.lt_succ_of_lt (h.group_lt x hx)
  case counter =>
    intro g hg
    simp only [Config.newGroup] at hg ⊢
    rw [List.countP_append,List.countP_singleton]
    by_cases hga : g = c.allocated
    · -- the new group counts the call alone
      subst hga
      have hcontexts : c.contexts.countP (Context.counted c.allocated) = 0 := by
        rw [List.countP_eq_zero]
        intro x hx
        have hlt := h.group_lt x hx
        rw [not_counted (by omega)]
        exact Bool.false_ne_true
      have hcalls₀ : c.calls.countP (Call.counted c.allocated) = 0 := by
        rw [List.countP_eq_zero]
        intro k hk hcounted
        simp only [Call.counted,Bool.and_eq_true,decide_eq_true_eq,
          Option.map_eq_some_iff] at hcounted
        obtain ⟨⟨⟨w,barrierWg⟩,he,hb⟩,-⟩ := hcounted
        have hlt := (h.groups k hk w barrierWg he).2
        simp only at hb
        omega
      have hnew : Call.counted c.allocated ⟨some (wg,c.allocated),c.contexts.length,phase⟩ = true := by
        rcases hphase with rfl | rfl <;> simp [Call.counted]
      rw [Function.update_self,hcontexts,hcalls₀,if_pos hnew]
    · have hnew : Call.counted g ⟨some (wg,c.allocated),c.contexts.length,phase⟩ = false := by
        simp only [Call.counted,Option.map_some,Option.some.injEq]
        rw [decide_eq_false fun he => hga he.symm,Bool.false_and]
      rw [Function.update_of_ne hga,h.counter g (by omega),hnew,if_neg Bool.false_ne_true]
      rfl
  case groups =>
    intro k hk w barrierWg he
    show barrierWg = w+1 ∧ barrierWg < c.allocated+1
    rcases hcalls k hk with hk | rfl
    · obtain ⟨hb,hlt⟩ := h.groups k hk w barrierWg he
      exact ⟨hb,by omega⟩
    · cases he
      exact ⟨hcurrent,by omega⟩
  case swapped =>
    intro g hg
    by_cases hgw : g = wg
    · subst hgw
      refine ⟨c.calls.length,_,List.getElem?_concat_length,?_⟩
      rw [hcurrent]
    · simp only [Config.newGroup] at hg
      obtain ⟨n,k,hn,hk⟩ := h.swapped g (by omega)
      exact ⟨n,k,by rw [List.getElem?_append_left (List.getElem?_eq_some_iff.mp hn).1,hn],hk⟩
  case sorted =>
    intro m n k k' hmn hk hk' g g' hg hg'
    have hn : n < c.calls.length+1 := by
      simpa using (List.getElem?_eq_some_iff.mp hk').1
    rw [List.getElem?_append_left (by omega)] at hk
    by_cases hlast : n < c.calls.length
    · rw [List.getElem?_append_left hlast] at hk'
      exact h.sorted m n k k' hmn hk hk' g g' hg hg'
    · obtain rfl : n = c.calls.length := by omega
      rw [List.getElem?_concat_length] at hk'
      cases hk'
      cases hg'
      have := h.groups k (List.mem_of_getElem? hk) g.1 g.2 hg
      simp only
      omega
  case before_le =>
    intro k hk
    rcases hcalls k hk with hk | rfl
    · exact h.before_le k hk
    · exact le_rfl
  case before =>
    intro k hk w barrierWg he i x hx
    rcases hcalls k hk with hk | rfl
    · exact h.before k hk w barrierWg he i x hx
    · cases he
      have hlt := h.group_lt x (List.mem_of_getElem? hx)
      have hi := (List.getElem?_eq_some_iff.mp hx).1
      simp only [Config.newGroup] at hi ⊢
      omega
  case idle =>
    intro k hk he
    rcases hcalls k hk with hk | rfl
    · exact h.idle k hk he
    · cases he
  case drained =>
    intro k hk hph
    rcases hcalls k hk with hk | rfl
    · exact h.drained k hk hph
    · rcases hphase with rfl | rfl <;> rcases hph with hph | hph <;> cases hph

theorem barrier (h : Inv c) (u : Bool) : Inv (c.barrierWithUnlock u) := by
  unfold Config.barrierWithUnlock
  split
  · rename_i hwg
    refine h.barrier_idle hwg ?_
    cases u
    · exact .inr rfl
    · exact .inl rfl
  · rename_i wg hwg
    refine h.barrier_swap hwg ?_
    cases u
    · exact .inr rfl
    · exact .inl rfl

/-- A call that goes on keeps the invariant, if the group it is counted in knows it. -/
theorem setPhase (h : Inv c) {n : ℕ} {k : Call} (hn : c.calls[n]? = some k) {phase : Phase}
    {counter : ℕ → ℕ} (hcounter : ∀ g < c.allocated, counter g+(k.counted g).toNat =
      c.counter g+({k with phase := phase}.counted g).toNat)
    (hidle : k.groups = none → phase = .unlocking ∨ phase = .returned)
    (hdrained : phase = .finishing ∨ phase = .returned → ∀ wg barrierWg,
      k.groups = some (wg,barrierWg) → ∀ x ∈ c.contexts, x.wg ≤ wg → x.done = true) :
    Inv ({c with counter := counter}.setPhase n phase) := by
  have hmod : ∀ (m : ℕ) (y : Call),
      (c.calls.modify n fun k => {k with phase := phase})[m]? = some y →
      ∃ x, c.calls[m]? = some x ∧ y.groups = x.groups ∧ y.before = x.before ∧
        (y = x ∨ x = k ∧ y.phase = phase) := by
    intro m y hy
    obtain ⟨x,hx,rfl⟩ := exists_of_modify hy
    refine ⟨x,hx,?_,?_,?_⟩
    · split_ifs <;> rfl
    · split_ifs <;> rfl
    · split_ifs with hnm
      · subst hnm
        rw [hn] at hx
        exact .inr ⟨(Option.some.inj hx).symm,rfl⟩
      · exact .inl rfl
  have hmem : ∀ y ∈ c.calls.modify n fun k => {k with phase := phase},
      ∃ x ∈ c.calls, y.groups = x.groups ∧ y.before = x.before ∧
        (y = x ∨ x = k ∧ y.phase = phase) := by
    intro y hy
    obtain ⟨m,hm⟩ := List.mem_iff_getElem?.mp hy
    obtain ⟨x,hx,hy⟩ := hmod m y hm
    exact ⟨x,List.mem_of_getElem? hx,hy⟩
  constructor
  case current => exact h.current
  case fresh => exact h.fresh
  case group_lt => exact h.group_lt
  case counter =>
    intro g hg
    have hcount := h.counter g hg
    have hmove := countP_modify (f := fun k : Call => {k with phase := phase})
      (Call.counted g) hn
    have hg' := hcounter g hg
    simp only [Config.setPhase]
    omega
  case groups =>
    intro y hy wg barrierWg he
    obtain ⟨x,hx,hgroups,-⟩ := hmem y hy
    exact h.groups x hx wg barrierWg (hgroups ▸ he)
  case swapped =>
    intro g hg
    obtain ⟨m,x,hm,hx⟩ := h.swapped g hg
    refine ⟨m,if n = m then {x with phase := phase} else x,?_,?_⟩
    · simp only [Config.setPhase,List.getElem?_modify,hm]
      split_ifs <;> rfl
    · split_ifs <;> exact hx
  case sorted =>
    intro m m' y y' hmm hy hy' g g' hg hg'
    obtain ⟨x,hx,hgroups,-⟩ := hmod m y hy
    obtain ⟨x',hx',hgroups',-⟩ := hmod m' y' hy'
    exact h.sorted m m' x x' hmm hx hx' g g' (hgroups ▸ hg) (hgroups' ▸ hg')
  case before_le =>
    intro y hy
    obtain ⟨x,hx,-,hbefore,-⟩ := hmem y hy
    rw [hbefore]
    exact h.before_le x hx
  case before =>
    intro y hy wg barrierWg he
    obtain ⟨x,hx,hgroups,hbefore,-⟩ := hmem y hy
    rw [hbefore]
    exact h.before x hx wg barrierWg (hgroups ▸ he)
  case idle =>
    intro y hy he
    obtain ⟨x,hx,hgroups,hbefore,hyx⟩ := hmem y hy
    obtain ⟨hzero,hph⟩ := h.idle x hx (hgroups ▸ he)
    refine ⟨hbefore.trans hzero,?_⟩
    rcases hyx with rfl | ⟨rfl,hphase⟩
    · exact hph
    · rw [hphase]
      exact hidle (hgroups ▸ he)
  case drained =>
    intro y hy hph wg barrierWg he
    obtain ⟨x,hx,hgroups,-,rfl | ⟨rfl,hphase⟩⟩ := hmem y hy
    · exact h.drained y hx hph wg barrierWg he
    · rw [hphase] at hph
      exact hdrained hph wg barrierWg (hgroups ▸ he)

theorem unlock (h : Inv c) {n b : ℕ} {g : Option (ℕ × ℕ)}
    (hn : c.calls[n]? = some ⟨g,b,.unlocking⟩) :
    Inv (c.setPhase n (if g = none then .returned else .waiting)) := by
  refine h.setPhase hn (fun g' _ => ?_) (fun hg => ?_) fun hph => ?_
  · cases g <;> simp [Call.counted]
  · cases hg
    exact .inr rfl
  · cases g with
    | none => exact fun wg barrierWg he => (by cases he)
    | some g => rcases hph with hph | hph <;> cases hph

theorem wait (h : Inv c) {n wg barrierWg b : ℕ}
    (hn : c.calls[n]? = some ⟨some (wg,barrierWg),b,.waiting⟩) (hzero : c.counter wg = 0) :
    Inv (c.setPhase n .finishing) := by
  refine h.setPhase hn (fun g' _ => ?_) (fun hg => by cases hg)
    fun _ w barrierWg' he x hx hle => ?_
  · simp [Call.counted]
  · cases he
    have hlt := h.groups _ (List.mem_of_getElem? hn) wg barrierWg rfl
    exact h.drained_of_zero (by omega) hzero hx hle

theorem barrierDone (h : Inv c) {n wg barrierWg b m : ℕ}
    (hn : c.calls[n]? = some ⟨some (wg,barrierWg),b,.finishing⟩)
    (hm : c.counter barrierWg = m+1) :
    Inv ({c with counter := Function.update c.counter barrierWg m}.setPhase n .returned) := by
  refine h.setPhase hn (fun g' _ => ?_) (fun hg => by cases hg)
    fun _ => h.drained _ (List.mem_of_getElem? hn) (.inl rfl)
  by_cases hg : g' = barrierWg
  · subst hg
    simp [Call.counted,hm]
  · have hne : ¬barrierWg = g' := fun he => hg he.symm
    simp [Call.counted,Function.update_of_ne hg,hne]

theorem move (h : Inv c) {a : Action} (hs : c.step a = .ok (some c')) : Inv c' := by
  cases Config.step_moves hs with
  | start => exact h.start
  | done hi hn => exact h.done hi hn
  | barrier u => exact h.barrier u
  | unlock hn => exact h.unlock hn
  | wait hn hzero => exact h.wait hn hzero
  | barrierDone hn hm => exact h.barrierDone hn hm

theorem of_run {P : Action → Prop} (hs : Inv c) (h : ReflTransGen (StepsBy Config.step P) c c') :
    Inv c' :=
  invariant (P := Inv) (fun _ _ hinv ⟨_,_,hs⟩ => hinv.move hs) hs h

/-- A group is never done more often than it was added to. -/
theorem step_ok (h : Inv c) (a : Action) : ∃ o, c.step a = .ok o := by
  have hdone : ∀ {g : ℕ}, 0 < c.counter g → ∃ c₁, c.groupDone g = .ok c₁ := by
    intro g hg
    obtain ⟨m,hm⟩ : ∃ m, c.counter g = m+1 := ⟨c.counter g-1,by omega⟩
    exact ⟨_,by rw [Config.groupDone,hm]⟩
  cases a with
  | start => exact ⟨_,rfl⟩
  | barrier u => exact ⟨_,rfl⟩
  | done i =>
    simp only [Config.step]
    split
    · rename_i wg hi
      have hmem := List.mem_of_getElem? hi
      have hpos : 0 < c.contexts.countP (Context.counted wg) :=
        List.countP_pos_iff.mpr ⟨_,hmem,by simp [Context.counted]⟩
      obtain ⟨c₁,hc₁⟩ := hdone (g := wg) (by
        rw [h.counter wg (h.group_lt _ hmem)]
        omega)
      rw [hc₁]
      exact ⟨_,rfl⟩
    · exact ⟨_,rfl⟩
  | unlock n =>
    simp only [Config.step]
    split <;> exact ⟨_,rfl⟩
  | wait n =>
    simp only [Config.step]
    split
    · split_ifs <;> exact ⟨_,rfl⟩
    · exact ⟨_,rfl⟩
  | barrierDone n =>
    simp only [Config.step]
    split
    · rename_i wg barrierWg b hn
      have hmem := List.mem_of_getElem? hn
      have hpos : 0 < c.calls.countP (Call.counted barrierWg) :=
        List.countP_pos_iff.mpr ⟨_,hmem,by simp [Call.counted]⟩
      obtain ⟨c₁,hc₁⟩ := hdone (g := barrierWg) (by
        rw [h.counter barrierWg (h.groups _ hmem wg barrierWg rfl).2]
        omega)
      rw [hc₁]
      exact ⟨_,rfl⟩
    · exact ⟨_,rfl⟩

end Inv

/-- The `n`-th call has returned. -/
def Config.Returned (c : Config) (n : ℕ) : Prop :=
  ∃ k, c.calls[n]? = some k ∧ k.phase = .returned

/-- The contexts that were started before the `n`-th call are done. -/
def Config.Drained (c : Config) (n : ℕ) : Prop :=
  ∀ k, c.calls[n]? = some k → ∀ (i : ℕ) (x : Context), i < k.before → c.contexts[i]? = some x →
    x.done = true

section Progress

variable {c c' : Config}

/-- The steps of calls that have had the lock change nothing but counters and phases. -/
theorem frame_ofCalls {n : ℕ} (h : ReflTransGen (StepsBy Config.step (Action.ofCalls n)) c c') :
    c'.contexts = c.contexts ∧ ∀ (m : ℕ) (k : Call), c.calls[m]? = some k →
      ∃ k', c'.calls[m]? = some k' ∧ k'.groups = k.groups ∧ k'.before = k.before := by
  have hphase : ∀ (d : Config) (n : ℕ) (phase : Phase) (m : ℕ) (k : Call), d.calls[m]? = some k →
      ∃ k', (d.setPhase n phase).calls[m]? = some k' ∧ k'.groups = k.groups ∧
        k'.before = k.before := by
    intro d n phase m k hk
    refine ⟨if n = m then {k with phase := phase} else k,?_,?_,?_⟩
    · simp only [Config.setPhase,List.getElem?_modify,hk]
      split_ifs <;> rfl
    · split_ifs <;> rfl
    · split_ifs <;> rfl
  induction h with
  | refl => exact ⟨rfl,fun m k hk => ⟨k,hk,rfl,rfl⟩⟩
  | tail _ hlast ih =>
    obtain ⟨hcontexts,hcalls⟩ := ih
    obtain ⟨a,ha,hs⟩ := hlast
    cases Config.step_moves hs with
    | start => cases ha
    | done hi hn => cases ha
    | barrier u => cases ha
    | unlock hn | wait hn _ | barrierDone hn _ =>
      refine ⟨hcontexts,fun m k hk => ?_⟩
      obtain ⟨k₁,hk₁,hg₁,hb₁⟩ := hcalls m k hk
      obtain ⟨k₂,hk₂,hg₂,hb₂⟩ := hphase _ _ _ m k₁ hk₁
      exact ⟨k₂,hk₂,hg₂.trans hg₁,hb₂.trans hb₁⟩

theorem setPhase_self {n : ℕ} {k : Call} (hn : c.calls[n]? = some k) (phase : Phase) :
    (c.setPhase n phase).calls[n]? = some {k with phase := phase} :=
  getElem?_modify_self hn

theorem returns_of_finishing (h : Inv c) {n wg barrierWg b : ℕ}
    (hn : c.calls[n]? = some ⟨some (wg,barrierWg),b,.finishing⟩) :
    ∃ c', ReflTransGen (StepsBy Config.step (Action.ofCalls n)) c c' ∧ c'.Returned n := by
  have hstep : c.step (.barrierDone n) =
      (c.groupDone barrierWg).bind fun c' => .ok (some (c'.setPhase n .returned)) := by
    simp only [Config.step,hn]
    rfl
  obtain ⟨o,ho⟩ := h.step_ok (.barrierDone n)
  rw [hstep] at ho
  obtain ⟨c₁,hc₁,-⟩ := exists_bind ho
  rw [hc₁] at hstep
  obtain ⟨m,-,rfl⟩ := Config.groupDone_ok hc₁
  exact ⟨_,.single ⟨.barrierDone n,le_rfl,hstep⟩,_,setPhase_self hn _,rfl⟩

theorem returns_of_waiting (h : Inv c) {n wg barrierWg b : ℕ}
    (hn : c.calls[n]? = some ⟨some (wg,barrierWg),b,.waiting⟩) (hzero : c.counter wg = 0) :
    ∃ c', ReflTransGen (StepsBy Config.step (Action.ofCalls n)) c c' ∧ c'.Returned n := by
  have hstep : c.step (.wait n) = .ok (some (c.setPhase n .finishing)) := by
    simp only [Config.step,hn,hzero,if_true]
  obtain ⟨c',hrun,hret⟩ := returns_of_finishing (h.move hstep) (setPhase_self hn .finishing)
  exact ⟨c',.head ⟨.wait n,le_rfl,hstep⟩ hrun,hret⟩

/-- A call whose group is empty can return by its own steps. -/
theorem returns_of_zero (h : Inv c) {n wg barrierWg : ℕ} {k : Call} (hn : c.calls[n]? = some k)
    (hk : k.groups = some (wg,barrierWg)) (hzero : c.counter wg = 0) :
    ∃ c', ReflTransGen (StepsBy Config.step (Action.ofCalls n)) c c' ∧ c'.Returned n := by
  obtain ⟨g,b,phase⟩ := k
  cases hk
  cases phase with
  | returned => exact ⟨c,.refl,_,hn,rfl⟩
  | finishing => exact returns_of_finishing h hn
  | waiting => exact returns_of_waiting h hn hzero
  | unlocking =>
    have hstep : c.step (.unlock n) = .ok (some (c.setPhase n .waiting)) := by
      simp only [Config.step,hn]
    obtain ⟨c',hrun,hret⟩ := returns_of_waiting (h.move hstep) (setPhase_self hn .waiting) hzero
    exact ⟨c',.head ⟨.unlock n,le_rfl,hstep⟩ hrun,hret⟩

theorem Inv.call_unique (h : Inv c) {m n : ℕ} {k k' : Call} {g : ℕ × ℕ} (hm : c.calls[m]? = some k)
    (hn : c.calls[n]? = some k') (hk : k.groups = some g) (hk' : k'.groups = some g) : m = n := by
  rcases lt_trichotomy m n with hlt | heq | hgt
  · exact absurd (h.sorted m n k k' hlt hm hn g g hk hk') (lt_irrefl _)
  · exact heq
  · exact absurd (h.sorted n m k' k hgt hn hm g g hk' hk) (lt_irrefl _)

theorem Inv.counter_eq_zero (h : Inv c) {wg : ℕ} (hwg : wg < c.allocated)
    (hcontexts : ∀ x ∈ c.contexts, x.wg = wg → x.done = true)
    (hcalls : ∀ k ∈ c.calls, ∀ g, k.groups = some (g,wg) → k.phase = .returned) :
    c.counter wg = 0 := by
  rw [h.counter wg hwg,Nat.add_eq_zero_iff,List.countP_eq_zero,List.countP_eq_zero]
  refine ⟨fun x hx hcounted => ?_,fun k hk hcounted => ?_⟩
  · simp only [Context.counted,Bool.and_eq_true,decide_eq_true_eq,Bool.not_eq_true'] at hcounted
    rw [hcontexts x hx hcounted.1] at hcounted
    exact Bool.noConfusion hcounted.2
  · simp only [Call.counted,Bool.and_eq_true,decide_eq_true_eq,Option.map_eq_some_iff] at hcounted
    obtain ⟨⟨⟨g,b⟩,he,rfl⟩,hne⟩ := hcounted
    exact hne (hcalls k hk g he)

/-- A call whose contexts are done can return by steps of the calls up to it. The induction goes
along the chain: the call before it in the chain returns first. -/
theorem exists_return (h : Inv c) {n : ℕ} {k : Call} (hn : c.calls[n]? = some k)
    (hdone : c.Drained n) :
    ∃ c', ReflTransGen (StepsBy Config.step (Action.ofCalls n)) c c' ∧ c'.Returned n := by
  induction n using Nat.strong_induction_on generalizing c k with
  | _ n ih =>
    have hmem := List.mem_of_getElem? hn
    rcases hgroups : k.groups with _ | ⟨wg,barrierWg⟩
    · rcases (h.idle k hmem hgroups).2 with hphase | hphase
      · have hstep : c.step (.unlock n) = .ok (some (c.setPhase n .returned)) := by
          obtain ⟨g,b,phase⟩ := k
          cases hgroups
          cases hphase
          simp only [Config.step,hn]
        exact ⟨_,.single ⟨.unlock n,le_rfl,hstep⟩,_,setPhase_self hn .returned,rfl⟩
      · exact ⟨c,.refl,k,hn,hphase⟩
    · obtain ⟨rfl,hlt⟩ := h.groups k hmem wg barrierWg hgroups
      -- the contexts of the groups up to `wg` are those that were started before
      have hup : ∀ x ∈ c.contexts, x.wg ≤ wg → x.done = true := by
        intro x hx hle
        obtain ⟨i,hi⟩ := List.mem_iff_getElem?.mp hx
        exact hdone k hn i x ((h.before k hmem wg _ hgroups i x hi).mpr hle) hi
      by_cases hfirst : wg = 0
      · subst hfirst
        refine returns_of_zero h hn hgroups (h.counter_eq_zero (by omega)
          (fun x hx he => hup x hx (by omega)) fun k' hk' g he => ?_)
        have := (h.groups k' hk' g 0 he).1
        omega
      · obtain ⟨g,rfl⟩ : ∃ g, wg = g+1 := ⟨wg-1,by omega⟩
        obtain ⟨m,k₀,hm,hk₀⟩ := h.swapped g (by omega)
        have hmn : m < n := by
          by_contra hge
          rcases Nat.lt_or_eq_of_le (not_lt.mp hge) with hlt' | heq
          · have := h.sorted n m k k₀ hlt' hn hm _ _ hgroups hk₀
            simp only at this
            omega
          · subst heq
            rw [hn] at hm
            cases hm
            rw [hgroups] at hk₀
            simp only [Option.some.injEq,Prod.mk.injEq] at hk₀
            omega
        have hdone₀ : c.Drained m := by
          intro k' hk' i x hi hx
          rw [hm] at hk'
          cases hk'
          have hle := (h.before _ (List.mem_of_getElem? hm) g _ hk₀ i x hx).mp hi
          exact hup x (List.mem_of_getElem? hx) (by omega)
        obtain ⟨c₁,hrun₁,k₁,hk₁,hph₁⟩ := ih m hmn h hm hdone₀
        obtain ⟨hcontexts,hcalls⟩ := frame_ofCalls hrun₁
        have h₁ := h.of_run hrun₁
        obtain ⟨k₂,hn₂,hg₂,hb₂⟩ := hcalls n k hn
        obtain ⟨k₁',hk₁',hg₁,-⟩ := hcalls m k₀ hm
        rw [hk₁] at hk₁'
        cases hk₁'
        have hlt₂ := h₁.groups k₂ (List.mem_of_getElem? hn₂) _ _ (hg₂.trans hgroups)
        have hzero : c₁.counter (g+1) = 0 := by
          refine h₁.counter_eq_zero (by omega) (fun x hx he => ?_) fun k' hk' g' he => ?_
          · exact hup x (hcontexts ▸ hx) (by omega)
          · -- only the call before this one is counted in the group
            have hg' := (h₁.groups k' hk' g' _ he).1
            obtain rfl : g' = g := by omega
            obtain ⟨m',hm'⟩ := List.mem_iff_getElem?.mp hk'
            obtain rfl := h₁.call_unique hm' hk₁ he (hg₁.trans hk₀)
            rw [hk₁] at hm'
            cases hm'
            exact hph₁
        obtain ⟨c₂,hrun₂,hret⟩ := returns_of_zero h₁ hn₂ (hg₂.trans hgroups) hzero
        refine ⟨c₂,(StepsBy.mono (fun a ha => ?_) hrun₁).trans hrun₂,hret⟩
        cases a <;> first | exact ha | exact le_trans ha hmn.le

end Progress

/-- Two contexts and two barriers; the later context finishes first. -/
def outOfOrder : List Action :=
  [.start,.barrier false,.start,.barrier true,.done 1,.unlock 1,.done 0,.wait 0,.barrierDone 0]

/-- The `i`-th context is started and not done. -/
def Config.Running (c : Config) (i : ℕ) : Prop := ∃ wg, c.contexts[i]? = some ⟨wg,false⟩

/-- The `i`-th context was started before the `n`-th call. -/
def Config.WaitsFor (c : Config) (n i : ℕ) : Prop := ∃ k, c.calls[n]? = some k ∧ i < k.before

section Users

variable {c c' : Config} {a : Action} {n i : ℕ}

theorem Inv.not_running (h : Inv c) (hn : c.Returned n) (hi : c.WaitsFor n i) : ¬c.Running i := by
  rintro ⟨wg,hx⟩
  obtain ⟨k,hk,hphase⟩ := hn
  obtain ⟨k',hk',hlt⟩ := hi
  obtain rfl : k = k' := Option.some.inj (hk.symm.trans hk')
  have hmem := List.mem_of_getElem? hk
  rcases hgroups : k.groups with _ | ⟨g,barrierWg⟩
  · have := (h.idle k hmem hgroups).1
    omega
  · have hle := (h.before k hmem g barrierWg hgroups i _ hx).mp hlt
    cases h.drained k hmem (.inr hphase) g barrierWg hgroups _ (List.mem_of_getElem? hx) hle

theorem start_contexts (c : Config) : ∃ wg, c.start.contexts = c.contexts++[⟨wg,false⟩] := by
  unfold Config.start
  split
  · exact ⟨_,rfl⟩
  · exact ⟨_,rfl⟩

theorem start_calls (c : Config) : c.start.calls = c.calls := by
  unfold Config.start
  split <;> rfl

theorem barrierWithUnlock_contexts (c : Config) (u : Bool) :
    (c.barrierWithUnlock u).contexts = c.contexts := by
  unfold Config.barrierWithUnlock
  split <;> rfl

theorem barrierWithUnlock_calls (c : Config) (u : Bool) :
    ∃ k, (c.barrierWithUnlock u).calls = c.calls++[k] ∧ k.before = c.contexts.length := by
  unfold Config.barrierWithUnlock
  split
  · exact ⟨_,rfl,rfl⟩
  · exact ⟨_,rfl,rfl⟩

theorem Config.Running.lt (h : c.Running i) : i < c.contexts.length := by
  obtain ⟨wg,hx⟩ := h
  exact (List.getElem?_eq_some_iff.mp hx).1

theorem running_start (c : Config) : c.start.Running c.contexts.length := by
  obtain ⟨wg,hwg⟩ := start_contexts c
  refine ⟨wg,?_⟩
  rw [hwg,List.getElem?_concat_length]

theorem waitsFor_barrier (u : Bool) (hi : i < c.contexts.length) :
    (c.barrierWithUnlock u).WaitsFor c.calls.length i := by
  obtain ⟨k,hk,hbefore⟩ := barrierWithUnlock_calls c u
  refine ⟨k,?_,by omega⟩
  rw [hk,List.getElem?_concat_length]

/-- A context runs until it is done. -/
theorem Config.Running.step (h : c.Running i) (hs : c.step a = .ok (some c')) (ha : a ≠ .done i) :
    c'.Running i := by
  obtain ⟨wg,hx⟩ := h
  cases Config.step_moves hs with
  | start =>
    obtain ⟨g,hg⟩ := start_contexts c
    refine ⟨wg,?_⟩
    rw [hg,List.getElem?_append_left (List.getElem?_eq_some_iff.mp hx).1,hx]
  | done hj _ =>
    refine ⟨wg,?_⟩
    simp only [Config.setDone]
    rw [List.getElem?_modify_ne _ _ fun he => ha (by rw [he]),hx]
  | barrier u =>
    refine ⟨wg,?_⟩
    rw [barrierWithUnlock_contexts,hx]
  | unlock _ | wait _ _ | barrierDone _ _ => exact ⟨wg,hx⟩

theorem contexts_length_le (hs : c.step a = .ok (some c')) :
    c.contexts.length ≤ c'.contexts.length := by
  cases Config.step_moves hs with
  | start =>
    obtain ⟨g,hg⟩ := start_contexts c
    simp [hg]
  | done _ _ => simp [Config.setDone]
  | barrier u => rw [barrierWithUnlock_contexts]
  | unlock _ | wait _ _ | barrierDone _ _ => exact le_rfl

/-- A call keeps its number and the contexts it waits for, and returns once. -/
theorem call_step {k : Call} (hk : c.calls[n]? = some k) (hs : c.step a = .ok (some c')) :
    ∃ k', c'.calls[n]? = some k' ∧ k'.before = k.before ∧
      (k.phase = .returned → k'.phase = .returned) := by
  have hmodify : ∀ {m : ℕ} {x : Call} (phase : Phase), c.calls[m]? = some x →
      x.phase ≠ .returned → ∃ k', (c.calls.modify m fun k => {k with phase := phase})[n]? = some k' ∧
        k'.before = k.before ∧ (k.phase = .returned → k'.phase = .returned) := by
    intro m x phase hm hx
    by_cases hmn : m = n
    · subst hmn
      rw [hk,Option.some.injEq] at hm
      subst hm
      exact ⟨_,getElem?_modify_self hk,rfl,fun hret => absurd hret hx⟩
    · exact ⟨k,by rw [List.getElem?_modify_ne _ _ hmn,hk],rfl,id⟩
  cases Config.step_moves hs with
  | start => exact ⟨k,by rw [start_calls,hk],rfl,id⟩
  | done _ _ => exact ⟨k,hk,rfl,id⟩
  | barrier u =>
    obtain ⟨k',hk',-⟩ := barrierWithUnlock_calls c u
    exact ⟨k,by rw [hk',List.getElem?_append_left (List.getElem?_eq_some_iff.mp hk).1,hk],rfl,id⟩
  | unlock hm => exact hmodify _ hm (by simp)
  | wait hm _ => exact hmodify _ hm (by simp)
  | barrierDone hm _ => exact hmodify _ hm (by simp)

theorem Config.Returned.step (h : c.Returned n) (hs : c.step a = .ok (some c')) :
    c'.Returned n := by
  obtain ⟨k,hk,hphase⟩ := h
  obtain ⟨k',hk',-,hret⟩ := call_step hk hs
  exact ⟨k',hk',hret hphase⟩

theorem Config.WaitsFor.step (h : c.WaitsFor n i) (hs : c.step a = .ok (some c')) :
    c'.WaitsFor n i := by
  obtain ⟨k,hk,hlt⟩ := h
  obtain ⟨k',hk',hbefore,-⟩ := call_step hk hs
  exact ⟨k',hk',by omega⟩

end Users

end WaitBarrier
end Logblock
