import Logblock.Loop

/-! Runs of a step relation: what every step keeps holds in every state that is reached, and a
trace lists the states of a run. A machine is given by a step function on its actions; its
processes stand in a list, of which one at a time moves. -/
namespace Logblock
namespace Transition

open Loop Relation

variable {σ : Type} {step : σ → σ → Prop}

/-- What every step keeps holds at the end of a run. -/
theorem invariant {P : σ → Prop} (hstep : ∀ s t, P s → step s t → P t) {s t : σ} (hs : P s)
    (h : ReflTransGen step s t) : P t := by
  induction h with
  | refl => exact hs
  | tail _ hlast ih => exact hstep _ _ ih hlast

/-- A run with the states it visits, the first and the last included. -/
inductive Trace (step : σ → σ → Prop) : σ → List σ → σ → Prop
  | refl (s : σ) : Trace step s [s] s
  | snoc {s t u : σ} {ms : List σ} : Trace step s ms t → step t u → Trace step s (ms++[u]) u

theorem Trace.run {s t : σ} {ms : List σ} (h : Trace step s ms t) : ReflTransGen step s t := by
  induction h with
  | refl => exact .refl
  | snoc _ hlast ih => exact ih.tail hlast

theorem Trace.last_mem {s t : σ} {ms : List σ} (h : Trace step s ms t) : t ∈ ms := by
  cases h with
  | refl => simp
  | snoc _ _ => simp

section Machine

variable {α : Type} {next : σ → α → Exec (Option σ)} {P : α → Prop}

/-- A step by one of the actions `P`. An action that is not enabled gives no state. -/
def StepsBy (next : σ → α → Exec (Option σ)) (P : α → Prop) (s t : σ) : Prop :=
  ∃ a, P a ∧ next s a = .ok (some t)

theorem StepsBy.mono {Q : α → Prop} (hPQ : ∀ a, P a → Q a) {s t : σ}
    (h : ReflTransGen (StepsBy next P) s t) : ReflTransGen (StepsBy next Q) s t := by
  induction h with
  | refl => exact .refl
  | tail _ hlast ih =>
    obtain ⟨a,ha,hs⟩ := hlast
    exact ih.tail ⟨a,hPQ a ha,hs⟩

/-- The state after some actions, if all of them are enabled. -/
def after (next : σ → α → Exec (Option σ)) : σ → List α → Exec (Option σ)
  | s, [] => .ok (some s)
  | s, a::as => do
    match ← next s a with
    | none => .ok none
    | some t => after next t as

/-- A part of the state after a run can be computed without the rest of it. -/
theorem exists_of_view {α β : Type} {x : Exec (Option α)} {f : α → β} {y : β}
    (h : x.toOption.join.map f = some y) : ∃ a, x = .ok (some a) ∧ f a = y := by
  obtain ⟨a,ha,hy⟩ := Option.map_eq_some_iff.mp h
  cases x with
  | error e => cases ha
  | ok o => exact ⟨a,congrArg Except.ok ha,hy⟩

theorem exists_of_after_cons {s u : σ} {a : α} {as : List α}
    (h : after next s (a::as) = .ok (some u)) :
    ∃ t, next s a = .ok (some t) ∧ after next t as = .ok (some u) := by
  obtain ⟨o,hs,h⟩ := exists_bind h
  cases o with
  | none => cases h
  | some t => exact ⟨t,hs,h⟩

/-- What each of the actions keeps holds after them. -/
theorem invariant_after {Q : σ → Prop} {s t : σ} {as : List α}
    (hstep : ∀ a ∈ as, ∀ s t, Q s → next s a = .ok (some t) → Q t) (hs : Q s)
    (h : after next s as = .ok (some t)) : Q t := by
  induction as generalizing s with
  | nil =>
    cases h
    exact hs
  | cons a as ih =>
    obtain ⟨u,hu,h⟩ := exists_of_after_cons h
    exact ih (fun b hb => hstep b (List.mem_cons_of_mem a hb))
      (hstep a List.mem_cons_self _ _ hs hu) h

theorem run_of_after {s t : σ} {as : List α} (hP : ∀ a ∈ as, P a)
    (h : after next s as = .ok (some t)) : ReflTransGen (StepsBy next P) s t :=
  invariant_after (Q := ReflTransGen (StepsBy next P) s)
    (fun a ha _ _ hrun hs => hrun.tail ⟨a,hP a ha,hs⟩) .refl h

/-- The states that the actions go through. -/
theorem trace_of_after (hstep : ∀ s a t, next s a = .ok (some t) → step s t) {s t : σ}
    {as : List α} (h : after next s as = .ok (some t)) : ∃ ms, Trace step s ms t :=
  invariant_after (Q := fun t => ∃ ms, Trace step s ms t)
    (fun a _ u v ⟨_,ht⟩ hs => ⟨_,ht.snoc (hstep u a v hs)⟩) ⟨_,.refl s⟩ h

theorem exists_of_after_append {s u : σ} {as bs : List α}
    (h : after next s (as++bs) = .ok (some u)) :
    ∃ t, after next s as = .ok (some t) ∧ after next t bs = .ok (some u) := by
  induction as generalizing s with
  | nil => exact ⟨s,rfl,h⟩
  | cons a as ih =>
    obtain ⟨t,hs,h⟩ := exists_of_after_cons h
    obtain ⟨u',hu,h'⟩ := ih h
    refine ⟨u',?_,h'⟩
    rw [after,hs]
    exact hu

end Machine

section Processes

variable {π : Type} {l : List π} {n : ℕ} {x : π} {f : π → π}

/-- The number of processes of a kind, when one of them moves. -/
theorem countP_modify (p : π → Bool) (h : l[n]? = some x) :
    (l.modify n f).countP p+(p x).toNat = l.countP p+(p (f x)).toNat := by
  induction l generalizing n with
  | nil => simp at h
  | cons y l ih =>
    cases n with
    | zero =>
      obtain rfl : y = x := by simpa using h
      rw [List.modify_zero_cons,List.countP_cons,List.countP_cons]
      cases p y <;> cases p (f y) <;> simp
    | succ n =>
      have := ih (by simpa using h)
      rw [List.modify_succ_cons,List.countP_cons,List.countP_cons]
      omega

theorem getElem?_modify_self (h : l[n]? = some x) : (l.modify n f)[n]? = some (f x) := by
  rw [List.getElem?_modify_eq,h,Option.map_eq_map,Option.map_some]

theorem exists_of_modify {m : ℕ} {y : π} (h : (l.modify n f)[m]? = some y) :
    ∃ x, l[m]? = some x ∧ y = if n = m then f x else x := by
  rw [List.getElem?_modify,Option.map_eq_map,Option.map_eq_some_iff] at h
  obtain ⟨x,hx,rfl⟩ := h
  exact ⟨x,hx,rfl⟩

theorem exists_of_mem_modify {y : π} (h : y ∈ l.modify n f) :
    ∃ m x, l[m]? = some x ∧ y = if n = m then f x else x := by
  obtain ⟨m,hm⟩ := List.mem_iff_getElem?.mp h
  exact ⟨m,exists_of_modify hm⟩

/-- Entries with different keys stand at one position only. -/
theorem index_inj {α β : Type} {f : α → β} {l : List α} (h : (l.map f).Nodup) {m n : ℕ} {a a' : α}
    (hm : l[m]? = some a) (hn : l[n]? = some a') (he : f a = f a') : m = n := by
  have hlt : m < (l.map f).length := by
    rw [List.length_map]
    exact (List.getElem?_eq_some_iff.mp hm).1
  refine (List.getElem?_inj hlt h).mp ?_
  rw [List.getElem?_map,List.getElem?_map,hm,hn,Option.map_some,Option.map_some,he]

/-- What a move does not change of a process. -/
theorem map_modify_of_eq {γ : Type} {g : π → γ} (h : ∀ x, g (f x) = g x) :
    (l.modify n f).map g = l.map g := by
  induction l generalizing n with
  | nil => simp
  | cons y l ih =>
    cases n with
    | zero => rw [List.modify_zero_cons,List.map_cons,List.map_cons,h]
    | succ n => rw [List.modify_succ_cons,List.map_cons,List.map_cons,ih]

/-- A move gives nothing new to a process, but may take something from it. -/
theorem filterMap_modify_sublist {γ : Type} {g : π → Option γ}
    (h : ∀ x, g (f x) = g x ∨ g (f x) = none) :
    ((l.modify n f).filterMap g).Sublist (l.filterMap g) := by
  induction l generalizing n with
  | nil => simp
  | cons y l ih =>
    cases n with
    | zero =>
      rw [List.modify_zero_cons,List.filterMap_cons,List.filterMap_cons]
      rcases h y with he | he
      · rw [he]
      · rw [he]
        cases g y with
        | none => exact List.Sublist.refl _
        | some z => exact List.sublist_cons_self z _
    | succ n =>
      rw [List.modify_succ_cons,List.filterMap_cons,List.filterMap_cons]
      cases g y with
      | none => exact ih
      | some z => exact ih.cons_cons z

/-- At most one process is of a kind that is counted at most once. -/
theorem eq_of_countP_le_one {p : π → Bool} {m : ℕ} {y : π} (h : l.countP p ≤ 1)
    (hm : l[m]? = some x) (hn : l[n]? = some y) (hx : p x = true) (hy : p y = true) : m = n := by
  induction l generalizing m n with
  | nil => simp at hm
  | cons z l ih =>
    rw [List.countP_cons] at h
    have hnone : ∀ {w : π}, p z = true → w ∈ l → p w ≠ true := by
      intro w hz hw
      rw [if_pos hz] at h
      exact List.countP_eq_zero.mp (by omega) w hw
    cases m with
    | zero =>
      cases n with
      | zero => rfl
      | succ n =>
        obtain rfl : z = x := by simpa using hm
        exact absurd hy (hnone hx (List.mem_of_getElem? (by simpa using hn)))
    | succ m =>
      cases n with
      | zero =>
        obtain rfl : z = y := by simpa using hn
        exact absurd hx (hnone hy (List.mem_of_getElem? (by simpa using hm)))
      | succ n =>
        exact congrArg Nat.succ (ih (by omega) (by simpa using hm) (by simpa using hn))

theorem foldl_erase_self [BEq π] [LawfulBEq π] (l : List π) : l.foldl List.erase l = [] := by
  induction l with
  | nil => rfl
  | cons a l ih => rwa [List.foldl_cons,List.erase_cons_head]

end Processes

section Events

variable {ε : Type} {l m : List ε} {a b x : ε}

/-- One event stands somewhere before another one. -/
def Precedes (l : List ε) (a b : ε) : Prop := [a,b].Sublist l

theorem precedes_concat : Precedes (l++[x]) a b ↔ Precedes l a b ∨ a ∈ l ∧ b = x := by
  constructor
  · intro h
    obtain ⟨l₁,l₂,he,h₁,h₂⟩ := List.sublist_append_iff.mp h
    rcases List.sublist_singleton.mp h₂ with rfl | rfl
    · rw [List.append_nil] at he
      subst he
      exact .inl h₁
    · rw [show [a,b] = [a]++[b] from rfl] at he
      obtain ⟨rfl,hb⟩ := List.append_inj' he rfl
      exact .inr ⟨List.singleton_sublist.mp h₁,List.head_eq_of_cons_eq hb⟩
  · rintro (h | ⟨h,rfl⟩)
    · exact h.trans (List.sublist_append_left l [x])
    · exact (List.singleton_sublist.mpr h).append (List.Sublist.refl [b])

theorem precedes_append (ha : a ∈ l) (hb : b ∈ m) : Precedes (l++m) a b :=
  (List.singleton_sublist.mpr ha).append (List.singleton_sublist.mpr hb)

theorem Precedes.append (h : Precedes l a b) (m : List ε) : Precedes (l++m) a b :=
  h.trans (List.sublist_append_left l m)

/-- Of two events one is the first. -/
theorem precedes_or (ha : a ∈ l) (hb : b ∈ l) (hne : a ≠ b) : Precedes l a b ∨ Precedes l b a := by
  obtain ⟨l₁,l₂,rfl⟩ := List.append_of_mem ha
  rcases List.mem_append.mp hb with hb | hb
  · exact .inr (precedes_append hb List.mem_cons_self)
  · refine .inl ((List.cons_sublist_cons.mpr (List.singleton_sublist.mpr ?_)).trans
      (List.sublist_append_right l₁ (a::l₂)))
    exact (List.mem_cons.mp hb).resolve_left fun he => hne he.symm

theorem Precedes.flatMap {ι : Type} {r : List ι} {f : ι → List ε} {i : ι} (hi : i ∈ r)
    (h : Precedes (f i) a b) : Precedes (r.flatMap f) a b := by
  obtain ⟨r₁,r₂,rfl⟩ := List.append_of_mem hi
  rw [List.flatMap_append,List.flatMap_cons]
  exact h.trans ((List.sublist_append_left _ _).trans (List.sublist_append_right _ _))

theorem precedes_flatMap {ι : Type} {r : List ι} {f : ι → List ε} {i j : ι} (hij : Precedes r i j)
    (ha : a ∈ f i) (hb : b ∈ f j) : Precedes (r.flatMap f) a b := by
  have hsub : ([i,j].flatMap f).Sublist (r.flatMap f) := List.Sublist.flatMap hij f
  rw [List.flatMap_cons,List.flatMap_singleton] at hsub
  exact (precedes_append ha hb).trans hsub

theorem precedes_range {i j n : ℕ} (hij : i < j) (hj : j < n) : Precedes (List.range n) i j := by
  rcases precedes_or (List.mem_range.mpr (hij.trans hj)) (List.mem_range.mpr hj) hij.ne with h | h
  · exact h
  · have := List.pairwise_lt_range.sublist h
    simp only [List.pairwise_cons,List.mem_singleton,forall_eq] at this
    omega

end Events

end Transition
end Logblock
