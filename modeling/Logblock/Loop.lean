import Mathlib

/-! Outcomes of sequential code and the loops of it. A computation returns a
value, panics, or outruns the fuel of one of its loops; the rules below turn an
invariant with a decreasing measure into the result of the whole loop. -/
namespace Logblock
namespace Loop

inductive Fault
  | panic (msg : String)
  | diverge
  deriving DecidableEq, Repr

abbrev Exec (α : Type) := Except Fault α

theorem exists_bind {α β : Type} {x : Exec α} {f : α → Exec β} {b : β} (h : x >>= f = .ok b) :
    ∃ a, x = .ok a ∧ f a = .ok b := by
  cases x with
  | error e => cases h
  | ok a => exact ⟨a,rfl,h⟩

/-- A part of the outcome can be computed without the rest of it. -/
theorem exists_of_map {α β : Type} {x : Exec α} {f : α → β} {b : β} (h : x.map f = .ok b) :
    ∃ a, x = .ok a ∧ f a = b := by
  cases x with
  | error e => cases h
  | ok a => exact ⟨a,rfl,Except.ok.inj h⟩

theorem error_of_map {α β : Type} {x : Exec α} {f : α → β} {fault : Fault}
    (h : x.map f = .error fault) : x = .error fault := by
  cases x with
  | ok a => cases h
  | error e =>
    cases h
    rfl

variable {σ ρ : Type}

/-- One pass of the body either continues from a new state or leaves the loop. -/
def run (body : σ → Exec (σ ⊕ ρ)) : ℕ → σ → Exec ρ
  | 0, _ => .error .diverge
  | fuel+1, s =>
    match body s with
    | .error e => .error e
    | .ok (.inl s') => run body fuel s'
    | .ok (.inr r) => .ok r

theorem run_next {body : σ → Exec (σ ⊕ ρ)} {s s' : σ} (h : body s = .ok (.inl s')) (fuel : ℕ) :
    run body (fuel+1) s = run body fuel s' := by
  simp only [run,h]

theorem run_done {body : σ → Exec (σ ⊕ ρ)} {s : σ} {r : ρ} (h : body s = .ok (.inr r))
    (fuel : ℕ) : run body (fuel+1) s = .ok r := by
  simp only [run,h]

theorem run_fault {body : σ → Exec (σ ⊕ ρ)} {s : σ} {e : Fault} (h : body s = .error e)
    (fuel : ℕ) : run body (fuel+1) s = .error e := by
  simp only [run,h]

/-- Total correctness of a loop: the invariant is kept while the measure drops, and
the pass that leaves the loop establishes the postcondition. -/
theorem run_total (body : σ → Exec (σ ⊕ ρ)) (inv : σ → Prop) (post : ρ → Prop) (μ : σ → ℕ)
    (hbody : ∀ s, inv s → (∃ s', body s = .ok (.inl s') ∧ inv s' ∧ μ s' < μ s) ∨
      ∃ r, body s = .ok (.inr r) ∧ post r)
    (fuel : ℕ) (s : σ) (hs : inv s) (hfuel : μ s < fuel) :
    ∃ r, run body fuel s = .ok r ∧ post r := by
  induction fuel generalizing s with
  | zero => omega
  | succ fuel ih =>
    rcases hbody s hs with ⟨s',h,hi,hμ⟩ | ⟨r,h,hr⟩
    · rw [run_next h]
      exact ih s' hi (by omega)
    · exact ⟨r,run_done h fuel,hr⟩

/-- Total correctness of a loop that may fault. -/
theorem run_total_or_fault (body : σ → Exec (σ ⊕ ρ)) (inv : σ → Prop) (post : ρ → Prop)
    (faulty : Prop) (μ : σ → ℕ)
    (hbody : ∀ s, inv s → (∃ s', body s = .ok (.inl s') ∧ inv s' ∧ μ s' < μ s) ∨
      (∃ r, body s = .ok (.inr r) ∧ post r) ∨ (∃ e, body s = .error e) ∧ faulty)
    (fuel : ℕ) (s : σ) (hs : inv s) (hfuel : μ s < fuel) :
    (∃ r, run body fuel s = .ok r ∧ post r) ∨ (∃ e, run body fuel s = .error e) ∧ faulty := by
  induction fuel generalizing s with
  | zero => omega
  | succ fuel ih =>
    rcases hbody s hs with ⟨s',h,hi,hμ⟩ | ⟨r,h,hr⟩ | ⟨⟨e,h⟩,hf⟩
    · rw [run_next h]
      exact ih s' hi (by omega)
    · exact .inl ⟨r,run_done h fuel,hr⟩
    · exact .inr ⟨⟨e,run_fault h fuel⟩,hf⟩

/-- Partial correctness of a loop. -/
theorem run_partial {body : σ → Exec (σ ⊕ ρ)} (inv : σ → Prop) (post : ρ → Prop)
    (hnext : ∀ s s', inv s → body s = .ok (.inl s') → inv s')
    (hdone : ∀ s r, inv s → body s = .ok (.inr r) → post r) {fuel : ℕ} {s : σ} {r : ρ}
    (hs : inv s) (h : run body fuel s = .ok r) : post r := by
  induction fuel generalizing s with
  | zero => cases h
  | succ fuel ih =>
    cases hb : body s with
    | error e =>
      rw [run_fault hb] at h
      cases h
    | ok out =>
      cases out with
      | inl s' =>
        rw [run_next hb] at h
        exact ih (hnext s s' hs hb) h
      | inr r' =>
        rw [run_done hb] at h
        cases h
        exact hdone s r hs hb

/-- Two bodies that agree on the states of the loop. -/
theorem run_congr {body body' : σ → Exec (σ ⊕ ρ)} (inv : σ → Prop)
    (heq : ∀ s, inv s → body s = body' s)
    (hnext : ∀ s s', inv s → body s = .ok (.inl s') → inv s') (fuel : ℕ) {s : σ} (hs : inv s) :
    run body fuel s = run body' fuel s := by
  induction fuel generalizing s with
  | zero => rfl
  | succ fuel ih =>
    rw [run,run,← heq s hs]
    cases hb : body s with
    | error e => rfl
    | ok out =>
      cases out with
      | inl s' => exact ih (hnext s s' hs hb)
      | inr r => rfl

/-- The loop of `sort.Search`; every pass halves what is left between `i` and `j`. -/
def searchFrom (f : ℕ → Bool) : ℕ → ℕ → ℕ → ℕ
  | 0, i, _ => i
  | fuel+1, i, j =>
    if i < j then
      if f ((i+j)/2) then searchFrom f fuel i ((i+j)/2) else searchFrom f fuel ((i+j)/2+1) j
    else i

/-- `sort.Search`. -/
def sortSearch (n : ℕ) (f : ℕ → Bool) : ℕ := searchFrom f n 0 n

theorem searchFrom_spec {f : ℕ → Bool} {n : ℕ} (hmono : ∀ a b, a ≤ b → b < n → f a → f b)
    (fuel i j : ℕ) (hfuel : j-i ≤ fuel) (hij : i ≤ j) (hj : j ≤ n) (hlow : ∀ k < i, f k = false)
    (hhigh : ∀ k, j ≤ k → k < n → f k = true) :
    searchFrom f fuel i j ≤ n ∧ (∀ k < searchFrom f fuel i j, f k = false) ∧
      ∀ k, searchFrom f fuel i j ≤ k → k < n → f k = true := by
  induction fuel generalizing i j with
  | zero =>
    have he : i = j := by omega
    exact ⟨by rw [searchFrom]; omega,hlow,fun k hk => hhigh k (he ▸ hk)⟩
  | succ fuel ih =>
    rw [searchFrom]
    split_ifs with hlt hf
    · refine ih i _ (by omega) (by omega) (by omega) hlow fun k hk hkn => ?_
      exact hmono _ k hk hkn hf
    · refine ih _ j (by omega) (by omega) hj (fun k hk => ?_) hhigh
      by_contra hfk
      exact hf (hmono k _ (by omega) (by omega) (by simpa using hfk))
    · have he : i = j := by omega
      exact ⟨by omega,hlow,fun k hk => hhigh k (he ▸ hk)⟩

/-- The least index at which a monotone test passes. -/
theorem sortSearch_spec {f : ℕ → Bool} {n : ℕ} (hmono : ∀ a b, a ≤ b → b < n → f a → f b) :
    sortSearch n f ≤ n ∧ (∀ k < sortSearch n f, f k = false) ∧
      ∀ k, sortSearch n f ≤ k → k < n → f k = true :=
  searchFrom_spec hmono n 0 n (by omega) (Nat.zero_le n) (le_refl n) (fun k hk => by omega)
    fun k hk hkn => by omega

end Loop
end Logblock
