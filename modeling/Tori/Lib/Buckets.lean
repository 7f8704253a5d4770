import Mathlib.Tactic

/-! A family of queues that share no entry: entries are pushed at the back and popped at the front, and each is in at
most one queue. -/

namespace Tori.Buckets

open Function

variable {ι ε : Type} [DecidableEq ι] {lists : ι → List ε} {b c : ι} {e x : ε} {rest : List ε}

def push (lists : ι → List ε) (b : ι) (e : ε) : ι → List ε := update lists b (lists b ++ [e])

structure Apart (lists : ι → List ε) : Prop where
  nodup : ∀ b, (lists b).Nodup
  once : ∀ b c e, e ∈ lists b → e ∈ lists c → b = c

theorem mem_push : x ∈ push lists b e c ↔ x ∈ lists c ∨ c = b ∧ x = e := by
  unfold push
  by_cases hc : c = b
  · subst hc
    simp
  · simp [hc]

theorem Apart.push (h : Apart lists) (hout : ∀ c, e ∉ lists c) (b : ι) : Apart (push lists b e) := by
  refine ⟨fun c => ?_, fun c d x hx hy => ?_⟩
  · unfold Buckets.push
    by_cases hc : c = b
    · subst hc
      rw [update_self, ← List.concat_eq_append]
      exact (h.nodup c).concat (hout c)
    · rw [update_of_ne hc]
      exact h.nodup c
  · rw [mem_push] at hx hy
    rcases hx with hx | ⟨rfl, rfl⟩ <;> rcases hy with hy | ⟨rfl, hxe⟩
    · exact h.once c d x hx hy
    · exact absurd (hxe ▸ hx) (hout c)
    · exact absurd hy (hout d)
    · rfl

theorem Apart.mem_pop (h : Apart lists) (hb : lists b = e :: rest) :
    x ∈ update lists b rest c ↔ x ∈ lists c ∧ x ≠ e := by
  have hnodup := h.nodup b
  rw [hb, List.nodup_cons] at hnodup
  by_cases hc : c = b
  · subst hc
    rw [update_self, hb, List.mem_cons]
    constructor
    · exact fun hx => ⟨Or.inr hx, fun hxe => hnodup.1 (hxe ▸ hx)⟩
    · exact fun hx => hx.1.resolve_left hx.2
  · rw [update_of_ne hc]
    refine ⟨fun hx => ⟨hx, ?_⟩, fun hx => hx.1⟩
    rintro rfl
    exact hc (h.once c b x hx (by rw [hb]; exact List.mem_cons_self))

theorem Apart.pop (h : Apart lists) (hb : lists b = e :: rest) :
    Apart (update lists b rest) ∧ ∀ c, e ∉ update lists b rest c := by
  refine ⟨⟨fun c => ?_, fun c d x hx hy => h.once c d x ((h.mem_pop hb).mp hx).1 ((h.mem_pop hb).mp hy).1⟩,
    fun c hc => ((h.mem_pop hb).mp hc).2 rfl⟩
  by_cases hc : c = b
  · subst hc
    have hnodup := h.nodup c
    rw [hb] at hnodup
    rw [update_self]
    exact hnodup.of_cons
  · rw [update_of_ne hc]
    exact h.nodup c

end Tori.Buckets
