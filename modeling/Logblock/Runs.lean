import Mathlib

/-! Partial maps on the naturals that are written one range at a time: the last
range painted over a key wins. A map is read back as the list of its maximal runs
of equal value, and that list is determined by the map alone. -/
namespace Logblock

structure Range where
  offset : ℕ
  length : ℕ
  deriving DecidableEq

structure RangeValue (V : Type) extends Range where
  value : V
  deriving DecidableEq

namespace Runs

variable {V : Type}

/-- The key `x` lies in `r`. -/
def Has (r : Range) (x : ℕ) : Prop := r.offset ≤ x ∧ x < r.offset+r.length

instance (r : Range) (x : ℕ) : Decidable (Has r x) := inferInstanceAs (Decidable (_ ∧ _))

/-- Overwrite the keys of `r`. -/
def paint (c : ℕ → Option V) (r : RangeValue V) : ℕ → Option V :=
  fun x => if Has r.toRange x then some r.value else c x

/-- The map left by a sequence of ranges, the later ones on top. -/
def paintAll (c : ℕ → Option V) (rs : List (RangeValue V)) : ℕ → Option V := rs.foldl paint c

@[simp] theorem paintAll_nil (c : ℕ → Option V) : paintAll c [] = c := rfl

@[simp] theorem paintAll_cons (c : ℕ → Option V) (r : RangeValue V) (rs : List (RangeValue V)) :
    paintAll c (r::rs) = paintAll (paint c r) rs := rfl

theorem paint_eq_some {c : ℕ → Option V} {r : RangeValue V} {x : ℕ} {v : V} :
    paint c r x = some v ↔ (Has r.toRange x ∧ r.value = v) ∨ (¬Has r.toRange x ∧ c x = some v) := by
  by_cases h : Has r.toRange x <;> simp [paint,h]

/-- What is found after painting comes from one of the ranges, or was there before. -/
theorem paintAll_eq_some {c : ℕ → Option V} {rs : List (RangeValue V)} {x : ℕ} {v : V}
    (h : paintAll c rs x = some v) : (∃ r ∈ rs, Has r.toRange x ∧ r.value = v) ∨ c x = some v := by
  induction rs generalizing c with
  | nil => exact .inr h
  | cons r rs ih =>
    rcases ih h with ⟨q,hq,hx⟩ | hp
    · exact .inl ⟨q,by simp [hq],hx⟩
    · rcases paint_eq_some.mp hp with hr | ⟨-,hc⟩
      · exact .inl ⟨r,by simp,hr⟩
      · exact .inr hc

theorem paintAll_ne_none {c : ℕ → Option V} {rs : List (RangeValue V)} {x : ℕ}
    (h : (∃ r ∈ rs, Has r.toRange x) ∨ c x ≠ none) : paintAll c rs x ≠ none := by
  induction rs generalizing c with
  | nil => simpa using h
  | cons r rs ih =>
    refine ih ?_
    by_cases hr : Has r.toRange x
    · exact .inr (by simp [paint,hr])
    · rcases h with ⟨q,hq,hx⟩ | hc
      · rcases List.mem_cons.mp hq with rfl | hq
        · exact absurd hx hr
        · exact .inl ⟨q,hq,hx⟩
      · exact .inr (by simpa [paint,hr] using hc)

/-- Keys no range reaches stay as they were. -/
theorem paintAll_of_ge {n : ℕ} (rs : List (RangeValue V)) (h : ∀ r ∈ rs, r.offset+r.length ≤ n)
    (c : ℕ → Option V) (x : ℕ) (hx : n ≤ x) : paintAll c rs x = c x := by
  induction rs generalizing c with
  | nil => rfl
  | cons r rs ih =>
    rw [paintAll_cons,ih fun q hq => h q (by simp [hq])]
    refine if_neg fun hh => ?_
    have := h r (by simp)
    have := hh.2
    omega

/-- A stretch of one value lies in one of the painted ranges, if the value says which. -/
theorem paintAll_within {rs : List (RangeValue V)}
    (hdet : ∀ r ∈ rs, ∀ r' ∈ rs, r.value = r'.value → r.toRange = r'.toRange) {e : RangeValue V}
    (hpos : 0 < e.length)
    (he : ∀ x, Has e.toRange x → paintAll (fun _ => none) rs x = some e.value) :
    ∃ r ∈ rs, r.value = e.value ∧ r.offset ≤ e.offset ∧
      e.offset+e.length ≤ r.offset+r.length := by
  have hfind {x : ℕ} (hx : Has e.toRange x) : ∃ r ∈ rs, Has r.toRange x ∧ r.value = e.value := by
    rcases paintAll_eq_some (he x hx) with h | h
    · exact h
    · cases h
  -- the first and the last key are in ranges of the same value
  obtain ⟨r,hr,hx,hv⟩ := hfind (x := e.offset) ⟨le_rfl,by omega⟩
  obtain ⟨r',hr',hx',hv'⟩ := hfind (x := e.offset+e.length-1) ⟨by omega,by omega⟩
  rw [← hdet r hr r' hr' (hv.trans hv'.symm)] at hx'
  have h₁ := hx.1
  have h₂ := hx'.2
  exact ⟨r,hr,hv,h₁,by omega⟩

/-- Of ranges that do not meet every one shows. -/
theorem paintAll_of_ascending {rs : List (RangeValue V)}
    (h : rs.Pairwise fun a b => a.offset+a.length ≤ b.offset) {r : RangeValue V} (hr : r ∈ rs)
    {x : ℕ} (hx : Has r.toRange x) : paintAll (fun _ => none) rs x = some r.value := by
  obtain ⟨v,hv⟩ := Option.ne_none_iff_exists'.mp
    (paintAll_ne_none (c := fun _ => none) (.inl ⟨r,hr,hx⟩))
  rcases paintAll_eq_some hv with ⟨q,hq,hqx,rfl⟩ | hn
  · have hor : rs.Pairwise fun a b => a.offset+a.length ≤ b.offset ∨
        b.offset+b.length ≤ a.offset := h.imp fun hab => .inl hab
    have : Std.Symm fun a b : RangeValue V => a.offset+a.length ≤ b.offset ∨
        b.offset+b.length ≤ a.offset := ⟨fun _ _ hab => hab.symm⟩
    by_cases hqr : q = r
    · rw [hv,hqr]
    · have h₁ := hx.1
      have h₂ := hx.2
      have h₃ := hqx.1
      have h₄ := hqx.2
      rcases hor.forall hq hr hqr with hlt | hlt <;> omega
  · cases hn

/-- The answers of a map determine its end: one past the last mapped key. -/
theorem end_unique {c : ℕ → Option V} {a b : ℕ} (ha : ∀ x, a ≤ x → c x = none)
    (ha' : 0 < a → c (a-1) ≠ none) (hb : ∀ x, b ≤ x → c x = none) (hb' : 0 < b → c (b-1) ≠ none) :
    a = b := by
  rcases lt_trichotomy a b with hlt | heq | hlt
  · exact absurd (ha (b-1) (by omega)) (hb' (by omega))
  · exact heq
  · exact absurd (hb (a-1) (by omega)) (ha' (by omega))

/-- `o` is the least key from `x` on with the property `P`, if there is one. -/
def LeastFrom (P : ℕ → Prop) (x : ℕ) : Option ℕ → Prop
  | some y => x ≤ y ∧ P y ∧ ∀ z, x ≤ z → z < y → ¬P z
  | none => ∀ z, x ≤ z → ¬P z

theorem LeastFrom.unique {P : ℕ → Prop} {x : ℕ} {a b : Option ℕ} (ha : LeastFrom P x a)
    (hb : LeastFrom P x b) : a = b := by
  cases a with
  | none =>
    cases b with
    | none => rfl
    | some y => exact absurd hb.2.1 (ha y hb.1)
  | some y =>
    cases b with
    | none => exact absurd ha.2.1 (hb y ha.1)
    | some z =>
      have h₁ : ¬z < y := fun h => ha.2.2 z hb.1 h hb.2.1
      have h₂ : ¬y < z := fun h => hb.2.2 y ha.1 h ha.2.1
      rw [show y = z by omega]

theorem LeastFrom.congr {P Q : ℕ → Prop} {x : ℕ} {o : Option ℕ} (h : ∀ z, P z ↔ Q z)
    (ho : LeastFrom P x o) : LeastFrom Q x o := by
  have he : P = Q := funext fun z => propext (h z)
  exact he ▸ ho

/-- In a set of whole blocks the least key from the start of a block on starts a block. -/
theorem LeastFrom.of_blocks {P : ℕ → Prop} {n x y : ℕ} (hn : 0 < n)
    (h : LeastFrom (fun z => P (z/n)) (x*n) (some y)) :
    ∃ k, y = k*n ∧ LeastFrom P x (some k) := by
  obtain ⟨hle,hy,hleast⟩ := h
  have hdiv : ∀ k, P k → P (k*n/n) := fun k hk => by rwa [Nat.mul_div_cancel k hn]
  have hxk : x ≤ y/n := (Nat.le_div_iff_mul_le hn).mpr hle
  have hstart : y/n*n = y := by
    by_contra hne
    have hlt : y/n*n < y := lt_of_le_of_ne (Nat.div_mul_le_self y n) hne
    exact hleast (y/n*n) (Nat.mul_le_mul_right n hxk) hlt (hdiv _ hy)
  refine ⟨y/n,hstart.symm,hxk,hy,fun k hk hlt hPk => ?_⟩
  refine hleast (k*n) (Nat.mul_le_mul_right n hk) ?_ (hdiv k hPk)
  rw [← hstart]
  exact Nat.mul_lt_mul_of_pos_right hlt hn

theorem LeastFrom.of_blocks_none {P : ℕ → Prop} {n x : ℕ} (hn : 0 < n)
    (h : LeastFrom (fun z => P (z/n)) (x*n) none) : LeastFrom P x none := by
  intro k hk hPk
  refine h (k*n) (Nat.mul_le_mul_right n hk) ?_
  simpa only [Nat.mul_div_cancel k hn] using hPk

section Count

variable {P : ℕ → Prop} [DecidablePred P]

/-- Every key of a run counts. -/
theorem count_run {a b : ℕ} (hab : a ≤ b) (h : ∀ z, a ≤ z → z < b → P z) :
    Nat.count P b = Nat.count P a+(b-a) := by
  obtain ⟨n,rfl⟩ := Nat.exists_eq_add_of_le hab
  have hall : Nat.count (fun k => P (a+k)) n = n :=
    Nat.count_iff_forall.mpr fun k hk => h (a+k) (by omega) (by omega)
  rw [Nat.count_add,hall,Nat.add_sub_cancel_left]

/-- No key of a gap counts. -/
theorem count_gap {a b : ℕ} (hab : a ≤ b) (h : ∀ z, a ≤ z → z < b → ¬P z) :
    Nat.count P b = Nat.count P a := by
  obtain ⟨n,rfl⟩ := Nat.exists_eq_add_of_le hab
  have hnone : Nat.count (fun k => P (a+k)) n = 0 :=
    Nat.count_iff_forall_not.mpr fun k hk => h (a+k) (by omega) (by omega)
  rw [Nat.count_add,hnone,Nat.add_zero]

end Count

/-- `rs` lists the maximal runs of equal value of `c`, clipped at `start`, in
ascending order. -/
structure IsRuns (c : ℕ → Option V) (start : ℕ) (rs : List (RangeValue V)) : Prop where
  ascending : rs.Pairwise fun a b => a.offset+a.length ≤ b.offset
  nonempty : ∀ r ∈ rs, 0 < r.length
  clipped : ∀ r ∈ rs, start ≤ r.offset
  valued : ∀ r ∈ rs, ∀ x, Has r.toRange x → c x = some r.value
  covers : ∀ x, start ≤ x → c x ≠ none → ∃ r ∈ rs, Has r.toRange x
  right_maximal : ∀ r ∈ rs, c (r.offset+r.length) ≠ some r.value
  left_maximal : ∀ r ∈ rs, start < r.offset → c (r.offset-1) ≠ some r.value

theorem IsRuns.mem_of_mem {c : ℕ → Option V} {start : ℕ} {rs rs' : List (RangeValue V)}
    (h : IsRuns c start rs) (h' : IsRuns c start rs') {r : RangeValue V} (hr : r ∈ rs) :
    r ∈ rs' := by
  have hpos := h.nonempty r hr
  have hv := h.valued r hr
  have hclip := h.clipped r hr
  obtain ⟨s,hs,hin⟩ := h'.covers r.offset hclip
    (by rw [hv r.offset ⟨le_rfl,by omega⟩]; simp)
  have hv' := h'.valued s hs
  have hval : s.value = r.value := by
    have h₁ := hv' _ hin
    rw [hv _ ⟨le_rfl,by omega⟩] at h₁
    exact (Option.some.inj h₁).symm
  obtain ⟨hlo,hhi⟩ := hin
  have hoff : s.offset = r.offset := by
    by_contra hne
    have hsc := h'.clipped s hs
    apply h.left_maximal r hr (by omega)
    rw [← hval]
    exact hv' _ ⟨by omega,by omega⟩
  have hlen : s.length = r.length := by
    rcases lt_trichotomy s.length r.length with hlt | he | hgt
    · exact absurd (hval ▸ hv (s.offset+s.length) ⟨by omega,by omega⟩) (h'.right_maximal s hs)
    · exact he
    · exact absurd (hval ▸ hv' (r.offset+r.length) ⟨by omega,by omega⟩) (h.right_maximal r hr)
  have he : r = s := by
    obtain ⟨⟨ro,rl⟩,rv⟩ := r
    obtain ⟨⟨so,sl⟩,sv⟩ := s
    simp_all
  exact he ▸ hs

/-- Ranges one behind the other cover as many keys as their lengths say. -/
theorem ncard_ranges {rs : List (RangeValue V)}
    (h : rs.Pairwise fun a b => a.offset+a.length ≤ b.offset) :
    {x | ∃ r ∈ rs, Has r.toRange x}.Finite ∧
      {x | ∃ r ∈ rs, Has r.toRange x}.ncard = (rs.map (·.length)).sum := by
  induction rs with
  | nil => simp
  | cons r rs ih =>
    obtain ⟨hfin,hcard⟩ := ih h.of_cons
    have hset : {x | ∃ q ∈ r::rs, Has q.toRange x} =
        Set.Ico r.offset (r.offset+r.length) ∪ {x | ∃ q ∈ rs, Has q.toRange x} := by
      ext x
      simp [Has]
    have hdisj : Disjoint (Set.Ico r.offset (r.offset+r.length))
        {x | ∃ q ∈ rs, Has q.toRange x} := by
      rw [Set.disjoint_left]
      rintro x hx ⟨q,hq,hle,_⟩
      have := List.rel_of_pairwise_cons h hq
      have := hx.2
      omega
    have hico : (Set.Ico r.offset (r.offset+r.length)).Finite := Set.finite_Ico _ _
    rw [hset]
    refine ⟨hico.union hfin,?_⟩
    rw [Set.ncard_union_eq hdisj hico hfin,hcard,← Finset.coe_Ico,Set.ncard_coe_finset]
    simp

/-- The keys of one value are counted by the runs of that value. -/
theorem IsRuns.sum_length [DecidableEq V] {c : ℕ → Option V} {rs : List (RangeValue V)}
    (h : IsRuns c 0 rs) (v : V) :
    ((rs.filter fun r => r.value = v).map (·.length)).sum = {x | c x = some v}.ncard := by
  rw [← (ncard_ranges (h.ascending.filter _)).2]
  congr 1
  ext x
  simp only [Set.mem_ofPred_eq,List.mem_filter,decide_eq_true_eq]
  constructor
  · rintro ⟨r,⟨hr,rfl⟩,hx⟩
    exact h.valued r hr x hx
  · intro hx
    obtain ⟨r,hr,hin⟩ := h.covers x (Nat.zero_le x) (by simp [hx])
    refine ⟨r,⟨hr,?_⟩,hin⟩
    have := h.valued r hr x hin
    rw [hx] at this
    exact (Option.some.inj this).symm

/-- The mapped keys are counted by all the runs. -/
theorem IsRuns.sum_length_all {c : ℕ → Option V} {rs : List (RangeValue V)}
    (h : IsRuns c 0 rs) : (rs.map (·.length)).sum = {x | c x ≠ none}.ncard := by
  rw [← (ncard_ranges h.ascending).2]
  congr 1
  ext x
  constructor
  · rintro ⟨r,hr,hx⟩
    simp [h.valued r hr x hx]
  · exact h.covers x (Nat.zero_le x)

/-- The runs are determined by the map. -/
theorem IsRuns.unique {c : ℕ → Option V} {start : ℕ} {rs rs' : List (RangeValue V)}
    (h : IsRuns c start rs) (h' : IsRuns c start rs') : rs = rs' := by
  have strict {l : List (RangeValue V)} (hl : IsRuns c start l) :
      l.Pairwise fun a b => a.offset < b.offset :=
    hl.ascending.imp_of_mem fun {a b} ha _ hab => by have := hl.nonempty a ha; omega
  have nodup {l : List (RangeValue V)} (hl : IsRuns c start l) : l.Nodup :=
    (strict hl).imp fun hlt he => by subst he; omega
  have hp : rs.Perm rs' := (List.perm_ext_iff_of_nodup (nodup h) (nodup h')).mpr
    fun r => ⟨h.mem_of_mem h',h'.mem_of_mem h⟩
  exact hp.eq_of_pairwise (fun a b _ _ hab hba => by omega) (strict h) (strict h')

/-- Join neighbouring pieces of equal value, `r` being the run under construction. -/
def coalesce [DecidableEq V] : RangeValue V → List (RangeValue V) → List (RangeValue V)
  | r, [] => if 0 < r.length then [r] else []
  | r, p::ps =>
    if r.value = p.value ∧ p.offset = r.offset+r.length then
      coalesce ⟨⟨r.offset,r.length+p.length⟩,r.value⟩ ps
    else if 0 < r.length then r::coalesce p ps
    else coalesce p ps

/-- Hand the ranges to a callback with a state of its own until it asks to stop. -/
def callUntil {σ : Type} (f : σ → RangeValue V → σ × Bool) : σ → List (RangeValue V) → σ
  | s, [] => s
  | s, r::rs => if (f s r).2 then callUntil f (f s r).1 rs else (f s r).1

/-- A callback that collects what it is handed and never stops. -/
theorem callUntil_collect {α : Type} (g : RangeValue V → List α) (buf : List α)
    (rs : List (RangeValue V)) :
    callUntil (fun buf r => (buf++g r,true)) buf rs = buf++rs.flatMap g := by
  induction rs generalizing buf with
  | nil => simp [callUntil]
  | cons r rs ih => simp [callUntil,ih]

/-- A callback that never stops folds over the ranges. -/
theorem callUntil_foldl {σ : Type} (g : σ → RangeValue V → σ) (s : σ)
    (rs : List (RangeValue V)) :
    callUntil (fun s r => (g s r,true)) s rs = rs.foldl g s := by
  induction rs generalizing s with
  | nil => rfl
  | cons r rs ih => simp [callUntil,ih]

/-- Pieces in ascending order, none of them empty. -/
def Ascending (ps : List (RangeValue V)) : Prop :=
  ps.Pairwise (fun a b => a.offset+a.length ≤ b.offset) ∧ ∀ p ∈ ps, 0 < p.length

theorem Ascending.tail {p : RangeValue V} {ps : List (RangeValue V)} (h : Ascending (p::ps)) :
    Ascending ps :=
  ⟨(List.pairwise_cons.mp h.1).2,fun q hq => h.2 q (by simp [hq])⟩

/-- Extending the run by the piece it touches keeps the order. -/
theorem Ascending.extend {r p : RangeValue V} {ps : List (RangeValue V)}
    (h : Ascending (r::p::ps)) (hp : p.offset = r.offset+r.length) :
    Ascending (⟨⟨r.offset,r.length+p.length⟩,r.value⟩::ps) := by
  obtain ⟨hr,hps⟩ := List.pairwise_cons.mp h.1
  obtain ⟨hp',hps⟩ := List.pairwise_cons.mp hps
  refine ⟨List.pairwise_cons.mpr ⟨fun q hq => ?_,hps⟩,fun q hq => ?_⟩
  · have := hp' q hq
    simp only
    omega
  · have hpos := h.2 r (by simp)
    rcases List.mem_cons.mp hq with rfl | hq
    · simp only
      omega
    · exact h.2 q (by simp [hq])

section Coalesce

variable [DecidableEq V]

/-- The first run starts with the first piece, and everything else comes after it. -/
theorem coalesce_head (r : RangeValue V) (ps : List (RangeValue V)) (h : Ascending (r::ps)) :
    ∃ n rest, coalesce r ps = ⟨⟨r.offset,n⟩,r.value⟩::rest ∧ r.length ≤ n ∧
      ∀ q ∈ rest, r.offset+n ≤ q.offset := by
  induction ps generalizing r with
  | nil =>
    have hpos := h.2 r (by simp)
    exact ⟨r.length,[],by simp [coalesce,hpos],le_rfl,by simp⟩
  | cons p ps ih =>
    have hpos := h.2 r (by simp)
    have hrp := (List.pairwise_cons.mp h.1).1 p (by simp)
    by_cases hm : r.value = p.value ∧ p.offset = r.offset+r.length
    · obtain ⟨n,rest,he,hle,hrest⟩ := ih _ (h.extend hm.2)
      exact ⟨n,rest,by rw [coalesce,if_pos hm,he],by simp only at hle; omega,hrest⟩
    · obtain ⟨n,rest,he,hle,hrest⟩ := ih p h.tail
      refine ⟨r.length,coalesce p ps,by rw [coalesce,if_neg hm,if_pos hpos],le_rfl,?_⟩
      intro q hq
      rw [he,List.mem_cons] at hq
      rcases hq with rfl | hq
      · exact hrp
      · have := hrest q hq
        omega

/-- Runs are ascending and no run continues the one before it. -/
theorem coalesce_pairwise (r : RangeValue V) (ps : List (RangeValue V)) (h : Ascending (r::ps)) :
    (coalesce r ps).Pairwise fun a b =>
      a.offset+a.length ≤ b.offset ∧ ¬(a.value = b.value ∧ b.offset = a.offset+a.length) := by
  induction ps generalizing r with
  | nil =>
    have hpos := h.2 r (by simp)
    simp [coalesce,hpos]
  | cons p ps ih =>
    have hpos := h.2 r (by simp)
    have hrp := (List.pairwise_cons.mp h.1).1 p (by simp)
    by_cases hm : r.value = p.value ∧ p.offset = r.offset+r.length
    · rw [coalesce,if_pos hm]
      exact ih _ (h.extend hm.2)
    · rw [coalesce,if_neg hm,if_pos hpos,List.pairwise_cons]
      refine ⟨fun q hq => ?_,ih p h.tail⟩
      obtain ⟨n,rest,he,hle,hrest⟩ := coalesce_head p ps h.tail
      have hppos := h.2 p (by simp)
      rw [he,List.mem_cons] at hq
      rcases hq with rfl | hq
      · exact ⟨hrp,hm⟩
      · have := hrest q hq
        exact ⟨by omega,fun hc => by omega⟩

theorem coalesce_nonempty (r : RangeValue V) (ps : List (RangeValue V)) (h : Ascending (r::ps)) :
    ∀ q ∈ coalesce r ps, 0 < q.length := by
  induction ps generalizing r with
  | nil =>
    have hpos := h.2 r (by simp)
    simp [coalesce,hpos]
  | cons p ps ih =>
    have hpos := h.2 r (by simp)
    by_cases hm : r.value = p.value ∧ p.offset = r.offset+r.length
    · rw [coalesce,if_pos hm]
      exact ih _ (h.extend hm.2)
    · rw [coalesce,if_neg hm,if_pos hpos]
      intro q hq
      rcases List.mem_cons.mp hq with rfl | hq
      · exact hpos
      · exact ih p h.tail q hq

/-- Joining pieces neither adds nor loses a key, nor changes a value. -/
theorem coalesce_has (r : RangeValue V) (ps : List (RangeValue V)) (h : Ascending (r::ps))
    (x : ℕ) (v : V) : (∃ q ∈ coalesce r ps, Has q.toRange x ∧ q.value = v) ↔
      ∃ q ∈ r::ps, Has q.toRange x ∧ q.value = v := by
  induction ps generalizing r with
  | nil =>
    have hpos := h.2 r (by simp)
    simp [coalesce,hpos]
  | cons p ps ih =>
    have hpos := h.2 r (by simp)
    by_cases hm : r.value = p.value ∧ p.offset = r.offset+r.length
    · rw [coalesce,if_pos hm,ih _ (h.extend hm.2)]
      simp only [List.mem_cons,exists_eq_or_imp,Has]
      rw [← or_assoc]
      refine or_congr ?_ Iff.rfl
      rw [← hm.1,hm.2,← or_and_right]
      refine and_congr ?_ Iff.rfl
      omega
    · rw [coalesce,if_neg hm,if_pos hpos]
      simp only [List.mem_cons (a := _) (b := r),exists_eq_or_imp]
      exact or_congr Iff.rfl (ih p h.tail)

/-- The pieces of `c` from `start` on: ascending, correctly valued and complete. -/
structure IsPieces (c : ℕ → Option V) (start : ℕ) (ps : List (RangeValue V)) : Prop where
  ascending : Ascending ps
  clipped : ∀ p ∈ ps, start ≤ p.offset
  valued : ∀ p ∈ ps, ∀ x, Has p.toRange x → c x = some p.value
  covers : ∀ x, start ≤ x → c x ≠ none → ∃ p ∈ ps, Has p.toRange x

theorem coalesce_isRuns_cons {c : ℕ → Option V} {start : ℕ} {r : RangeValue V}
    {ps : List (RangeValue V)} (h : IsPieces c start (r::ps)) :
    IsRuns c start (coalesce r ps) := by
  have hp := coalesce_pairwise r ps h.ascending
  have hn := coalesce_nonempty r ps h.ascending
  have hh := coalesce_has r ps h.ascending
  have valued : ∀ q ∈ coalesce r ps, ∀ x, Has q.toRange x → c x = some q.value := by
    intro q hq x hx
    obtain ⟨p,hp,hpx,hv⟩ := (hh x q.value).mp ⟨q,hq,hx,rfl⟩
    rw [h.valued p hp x hpx,hv]
  have clipped : ∀ q ∈ coalesce r ps, start ≤ q.offset := by
    intro q hq
    obtain ⟨p,hp,hpx,-⟩ := (hh q.offset q.value).mp ⟨q,hq,⟨le_rfl,by have := hn q hq; omega⟩,rfl⟩
    exact (h.clipped p hp).trans hpx.1
  have covers : ∀ x v, start ≤ x → c x = some v →
      ∃ q ∈ coalesce r ps, Has q.toRange x ∧ q.value = v := by
    intro x v hx hv
    obtain ⟨p,hp,hpx⟩ := h.covers x hx (by rw [hv]; simp)
    have := h.valued p hp x hpx
    rw [hv] at this
    exact (hh x v).mpr ⟨p,hp,hpx,(Option.some.inj this).symm⟩
  -- two runs that touch and carry one value would have been joined
  have apart : ∀ a ∈ coalesce r ps, ∀ b ∈ coalesce r ps, a.value = b.value →
      b.offset ≠ a.offset+a.length := by
    intro a ha b hb hv he
    have hna := hn a ha
    have hnb := hn b hb
    refine List.Pairwise.forall_of_forall_of_flip
      (R := fun a b => a ∈ coalesce r ps → b ∈ coalesce r ps → a.value = b.value →
        b.offset = a.offset+a.length → False) ?_ ?_ ?_ ha hb ha hb hv he
    · intro a ha _ _ _ he
      have := hn a ha
      omega
    · exact hp.imp fun hab _ _ hv he => hab.2 ⟨hv,he⟩
    · refine hp.imp fun {a b} hab hb ha hv he => ?_
      have := hn a ha
      have := hn b hb
      omega
  have same : ∀ a ∈ coalesce r ps, ∀ b ∈ coalesce r ps, ∀ x, Has a.toRange x →
      Has b.toRange x → a = b := by
    intro a ha b hb x hxa hxb
    refine List.Pairwise.forall_of_forall_of_flip
      (R := fun a b => Has a.toRange x → Has b.toRange x → a = b) (fun _ _ _ _ => rfl)
      (hp.imp ?_) (hp.imp ?_) ha hb hxa hxb
    · rintro a b hab ⟨h₁,h₂⟩ ⟨h₃,h₄⟩; omega
    · rintro a b hab ⟨h₁,h₂⟩ ⟨h₃,h₄⟩; omega
  refine ⟨hp.imp fun h => h.1,hn,clipped,valued,?_,?_,?_⟩
  · intro x hx hc
    obtain ⟨v,hv⟩ := Option.ne_none_iff_exists'.mp hc
    obtain ⟨q,hq,hqx,-⟩ := covers x v hx hv
    exact ⟨q,hq,hqx⟩
  · intro q hq hc
    have hqn := hn q hq
    have hcl := clipped q hq
    obtain ⟨b,hb,hbx,hv⟩ := covers _ q.value (by omega) hc
    refine apart q hq b hb hv.symm ?_
    by_contra hne
    have heq := same q hq b hb (q.offset+q.length-1) ⟨by omega,by omega⟩
      ⟨by have := hbx.1; omega,by have := hbx.2; omega⟩
    subst heq
    have := hbx.2
    omega
  · intro q hq hs hc
    have hqn := hn q hq
    obtain ⟨b,hb,hbx,hv⟩ := covers _ q.value (by omega) hc
    refine apart b hb q hq hv ?_
    by_contra hne
    have heq := same b hb q hq q.offset ⟨by have := hbx.1; omega,by
      have := hbx.2
      omega⟩ ⟨le_rfl,by omega⟩
    subst heq
    have := hbx.1
    omega

/-- An empty run at key zero never changes the first piece. -/
theorem coalesce_zero_cons (z : V) (p : RangeValue V) (ps : List (RangeValue V)) :
    coalesce ⟨⟨0,0⟩,z⟩ (p::ps) = coalesce p ps := by
  rw [coalesce]
  split_ifs with hm h0
  · have hp : (⟨⟨0,0+p.length⟩,z⟩ : RangeValue V) = p := by
      obtain ⟨⟨po,pl⟩,pv⟩ := p
      simp_all
    rw [hp]
  · simp at h0
  · rfl

/-- Joining pieces from an empty run yields exactly the maximal runs. -/
theorem coalesce_isRuns {c : ℕ → Option V} {start : ℕ} {ps : List (RangeValue V)}
    (h : IsPieces c start ps) (z : V) : IsRuns c start (coalesce ⟨⟨0,0⟩,z⟩ ps) := by
  cases ps with
  | nil =>
    refine ⟨by simp [coalesce],by simp [coalesce],by simp [coalesce],by simp [coalesce],?_,
      by simp [coalesce],by simp [coalesce]⟩
    intro x hx hc
    simpa using h.covers x hx hc
  | cons p ps =>
    rw [coalesce_zero_cons]
    exact coalesce_isRuns_cons h

end Coalesce

end Runs
end Logblock
