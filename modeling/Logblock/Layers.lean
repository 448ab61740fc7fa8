import Mathlib

/-! Sources laid over each other: for each key the first source that holds it answers, and those
behind it are hidden. Most of what a store does to its sources leaves these answers alone. -/
namespace Logblock
namespace Layers

variable {ρ κ β : Type} {data data' : ρ → κ → Option β} {rs l m : List ρ} {r : ρ} {x : κ}

/-- What the first source that holds `x` has for it. -/
def newest (data : ρ → κ → Option β) (rs : List ρ) (x : κ) : Option β := rs.findSome? (data · x)

@[simp] theorem newest_nil (data : ρ → κ → Option β) (x : κ) : newest data [] x = none := rfl

theorem newest_cons (data : ρ → κ → Option β) (r : ρ) (rs : List ρ) (x : κ) :
    newest data (r::rs) x = (data r x).or (newest data rs x) := by
  cases h : data r x <;> simp [newest,h]

theorem newest_append (data : ρ → κ → Option β) (l m : List ρ) (x : κ) :
    newest data (l++m) x = (newest data l x).or (newest data m x) := by
  rw [newest,List.findSome?_append]
  rfl

theorem newest_map {ι : Type} (data : ρ → κ → Option β) (f : ι → ρ) (l : List ι) (x : κ) :
    newest data (l.map f) x = newest (fun i => data (f i)) l x := by
  rw [newest,newest,List.findSome?_map]
  rfl

/-- A source may itself be made of sources. -/
theorem newest_flatMap {ι : Type} (data : ρ → κ → Option β) (f : ι → List ρ) (l : List ι) (x : κ) :
    newest data (l.flatMap f) x = newest (fun i => newest data (f i)) l x := by
  induction l with
  | nil => rfl
  | cons i l ih => rw [List.flatMap_cons,newest_append,newest_cons,ih]

/-- Some of the entries of a list name a source. -/
theorem newest_filterMap {ι : Type} (data : ρ → κ → Option β) (f : ι → Option ρ) (l : List ι)
    (x : κ) : newest data (l.filterMap f) x = newest (fun i x => (f i).bind (data · x)) l x := by
  induction l with
  | nil => rfl
  | cons i l ih =>
    rw [newest_cons,← ih]
    cases hi : f i with
    | none => rw [List.filterMap_cons_none hi,Option.bind_none,Option.none_or]
    | some r => rw [List.filterMap_cons_some hi,newest_cons,Option.bind_some]

theorem newest_eq_none : newest data rs x = none ↔ ∀ r ∈ rs, data r x = none := by
  simp [newest]

theorem newest_congr (h : ∀ r ∈ rs, data r x = data' r x) :
    newest data rs x = newest data' rs x := by
  induction rs with
  | nil => rfl
  | cons r rs ih =>
    rw [newest_cons,newest_cons,h r List.mem_cons_self,
      ih fun r' hr' => h r' (List.mem_cons_of_mem r hr')]

theorem newest_cons_of_some {b : β} (h : data r x = some b) : newest data (r::rs) x = some b := by
  rw [newest_cons,h,Option.some_or]

theorem newest_cons_of_none (h : data r x = none) : newest data (r::rs) x = newest data rs x := by
  rw [newest_cons,h,Option.none_or]

/-- A source that also stands in front is hidden. -/
theorem newest_append_of_subset (h : ∀ r ∈ m, r ∈ l) :
    newest data (l++(m++rs)) x = newest data (l++rs) x := by
  rw [newest_append,newest_append,newest_append]
  cases hl : newest data l x with
  | some b => rfl
  | none =>
    rw [newest_eq_none] at hl
    rw [newest_eq_none.mpr fun r hr => hl r (h r hr)]
    rfl

/-- Sources that do not hold the key may be taken out. -/
theorem newest_filter {p : ρ → Bool} (h : ∀ r ∈ rs, p r = false → data r x = none) :
    newest data (rs.filter p) x = newest data rs x := by
  induction rs with
  | nil => rfl
  | cons r rs ih =>
    have ih := ih fun r' hr' => h r' (List.mem_cons_of_mem r hr')
    cases hp : p r with
    | true => rw [List.filter_cons_of_pos hp,newest_cons,newest_cons,ih]
    | false =>
      rw [List.filter_cons_of_neg (by simp [hp]),newest_cons_of_none (h r List.mem_cons_self hp),ih]

/-- A source gets answers of its own, and nothing that holds a key stands in front of it. -/
theorem newest_append_of_or {front : List ρ} {q : Option β} (hfront : ∀ r' ∈ front, data r' x = none)
    (hother : ∀ r', r' ≠ r → data' r' x = data r' x) (hr : data' r x = q.or (data r x))
    (hnodup : (front++r::rs).Nodup) :
    newest data' (front++r::rs) x = q.or (newest data (front++r::rs) x) := by
  obtain ⟨_,hback,hdisjoint⟩ := List.nodup_append.mp hnodup
  have hfront' : ∀ r' ∈ front, data' r' x = none := by
    intro r' hr'
    rw [hother r' (hdisjoint r' hr' r List.mem_cons_self),hfront r' hr']
  have htail : newest data' rs x = newest data rs x := by
    refine newest_congr fun r' hr' => hother r' ?_
    rintro rfl
    exact (List.nodup_cons.mp hback).1 hr'
  rw [newest_append,newest_append,newest_eq_none.mpr hfront,newest_eq_none.mpr hfront',
    newest_cons,newest_cons,hr,htail]
  simp only [Option.none_or,Option.or_assoc]

/-- The sources `m` show all that those of `l` do: to lay `l` over them changes nothing. -/
def Shows (data : ρ → κ → Option β) (m l : List ρ) : Prop :=
  ∀ x, newest data (l++m) x = newest data m x

namespace Shows

theorem nil (data : ρ → κ → Option β) (m : List ρ) : Shows data m [] := fun _ => rfl

/-- What a single source holds is shown. -/
theorem singleton : Shows data m [r] ↔ ∀ x b, data r x = some b → newest data m x = some b := by
  constructor
  · intro h x b hb
    rw [← h x]
    exact newest_cons_of_some hb
  · intro h x
    rw [List.singleton_append,newest_cons]
    cases hb : data r x with
    | none => rfl
    | some b => exact (h x b hb).symm

theorem eq_some (h : Shows data m l) {b : β} (hl : newest data l x = some b) :
    newest data m x = some b := by
  rw [← h x,newest_append,hl,Option.some_or]

/-- What is shown by some sources is shown by others with the same answers. -/
theorem congr (h : Shows data m l) {m' : List ρ} (hm : ∀ x, newest data m' x = newest data m x) :
    Shows data m' l := by
  intro x
  rw [newest_append,hm,← newest_append,h x]

/-- A source is laid over both. -/
theorem cons (h : Shows data m l) (r : ρ) : Shows data (r::m) (r::l) := by
  intro x
  rw [List.cons_append]
  cases hr : data r x with
  | some b => rw [newest_cons_of_some hr,newest_cons_of_some hr]
  | none =>
    rw [newest_cons_of_none hr,newest_cons_of_none hr,newest_append,newest_cons_of_none hr,
      ← newest_append,h x]

theorem congr_data (h : Shows data m l) (hl : ∀ r ∈ l, data' r = data r)
    (hm : ∀ r ∈ m, data' r = data r) : Shows data' m l := by
  intro x
  have happend : newest data' (l++m) x = newest data (l++m) x := by
    refine newest_congr fun r hr => ?_
    rcases List.mem_append.mp hr with hr | hr
    · rw [hl r hr]
    · rw [hm r hr]
  rw [happend,h x]
  exact (newest_congr fun r hr => congrFun (hm r hr) x).symm

end Shows

end Layers
end Logblock
