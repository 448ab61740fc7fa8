import Logblock.BitmapRangeMap

/-! The two maps of `internal/rangemap` cannot be told apart. Both are compared with the
function that the added ranges paint; what an observer of the interface sees is determined
by that function alone. -/
namespace Logblock

open Loop Runs

variable {V : Type}

theorem rangeMaps_observationally_equal [DecidableEq V] [Inhabited V] (adds : List (RangeValue V))
    (hadds : ∀ r ∈ adds, r.offset+r.length < 2^63) :
    ∃ e : ExtentRangeMap V, ExtentRangeMap.empty.addAll adds = .ok e ∧
      (BitmapRangeMap.empty.addAll adds).begin = .ok e.begin ∧
      (BitmapRangeMap.empty.addAll adds).endKey = .ok e.endKey ∧
      (∀ x < 2^63, e.get x = paintAll (fun _ => none) adds x ∧
        (BitmapRangeMap.empty.addAll adds).get x = e.get x ∧
        (BitmapRangeMap.empty.addAll adds).nextKey x = .ok (e.nextKey x) ∧
        (BitmapRangeMap.empty.addAll adds).nextEmpty x = .ok (e.nextEmpty x)) ∧
      ∀ start, ∃ rs, IsRuns (paintAll (fun _ => none) adds) start rs ∧
        ∀ (σ : Type) (f : σ → RangeValue V → σ × Bool) (s : σ),
          e.iterate start f s = callUntil f s rs ∧
          (BitmapRangeMap.empty.addAll adds).iterate start f s = .ok (callUntil f s rs) := by
  have hlt : ∀ r ∈ adds, r.offset+r.length < 2^64 := fun r hr => by have := hadds r hr; omega
  obtain ⟨e,he,hewf,heget⟩ := ExtentRangeMap.addAll_spec adds .empty ExtentRangeMap.empty_wf hlt
  obtain ⟨hbwf,hbget⟩ := BitmapRangeMap.addAll_spec adds .empty BitmapRangeMap.empty_wf hlt
  generalize BitmapRangeMap.empty.addAll adds = b at hbwf hbget ⊢
  have hget : b.get = e.get := hbget.trans heget.symm
  have hpaint : e.get = paintAll (fun _ => none) adds := heget
  have hout : ∀ x, 2^63 ≤ x → b.get x = none := fun x hx => by
    rw [hget,hpaint]
    exact paintAll_of_ge adds (fun r hr => (hadds r hr).le) _ x hx
  refine ⟨e,he,?_,?_,fun x _ => ⟨congrFun hpaint x,congrFun hget x,?_,?_⟩,fun start => ?_⟩
  · obtain ⟨o,ho,hleast⟩ := BitmapRangeMap.begin_spec hbwf
    rw [hget] at hleast
    rw [ho,hleast.unique (ExtentRangeMap.begin_spec hewf)]
  · obtain ⟨n,hn,h₁,h₂⟩ := BitmapRangeMap.endKey_spec hbwf
    obtain ⟨h₁',h₂'⟩ := ExtentRangeMap.endKey_spec hewf
    rw [hget] at h₁ h₂
    rw [hn,end_unique h₁ h₂ h₁' h₂']
  · obtain ⟨o,ho,hleast⟩ := BitmapRangeMap.nextKey_spec hbwf x
    rw [hget] at hleast
    rw [ho,hleast.unique (ExtentRangeMap.nextKey_spec hewf x)]
  · obtain ⟨y,hy,hleast⟩ := BitmapRangeMap.nextEmpty_spec hbwf x
    rw [hget] at hleast
    rw [hy,Option.some.inj (hleast.unique (ExtentRangeMap.nextEmpty_spec hewf x))]
  · have hr := coalesce_isRuns (ExtentRangeMap.clipped_isPieces hewf start) default
    have hr' := coalesce_isRuns (BitmapRangeMap.units_isPieces (c := b.get) (i := start)
      (n := 2^63-start) fun x hx => hout x (by omega)) default
    rw [hget] at hr'
    refine ⟨_,hpaint ▸ hr,fun σ f s => ⟨ExtentRangeMap.iterate_eq hewf start f s,?_⟩⟩
    rw [BitmapRangeMap.iterate_eq hbwf hout,hget,hr'.unique hr]

/-- Ranges that overlap, touch a leaf boundary, or are empty. -/
theorem rangeMaps_observationally_equal_on_overlaps :
    ∃ e : ExtentRangeMap ℕ,
      ExtentRangeMap.empty.addAll [⟨⟨10,300⟩,1⟩,⟨⟨20,0⟩,2⟩,⟨⟨256,8⟩,3⟩] = .ok e ∧
      (BitmapRangeMap.empty.addAll [⟨⟨10,300⟩,1⟩,⟨⟨20,0⟩,2⟩,⟨⟨256,8⟩,3⟩]).endKey = .ok e.endKey := by
  obtain ⟨e,he,-,hend,-⟩ := rangeMaps_observationally_equal
    [⟨⟨10,300⟩,1⟩,⟨⟨20,0⟩,2⟩,⟨⟨256,8⟩,3⟩] (by decide)
  exact ⟨e,he,hend⟩

end Logblock
