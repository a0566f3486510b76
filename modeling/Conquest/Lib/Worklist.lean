import Mathlib.Data.List.Nodup

/-!
# Worklist — a queue that takes every vertex once

A vertex is queued only while it is not marked, and is marked when it is queued.
Whatever a visit queues in this way, no vertex is taken from the queue twice.
-/

namespace Worklist

variable {V : Type*}

structure Work (V : Type*) where
  marked : V → Bool
  queue : List V

/-- New vertices are queued and marked. -/
def Grows (w w' : Work V) : Prop :=
  ∃ pushed, w'.queue = w.queue ++ pushed ∧ pushed.Nodup ∧
    (∀ v ∈ pushed, w.marked v = false) ∧
      ∀ v, w'.marked v = true ↔ w.marked v = true ∨ v ∈ pushed

namespace Grows

theorem refl (w : Work V) : Grows w w :=
  ⟨[], (List.append_nil _).symm, List.nodup_nil, fun _ hv => absurd hv List.not_mem_nil,
    fun _ => (or_iff_left List.not_mem_nil).symm⟩

theorem trans {w w' w'' : Work V} (h : Grows w w') (h' : Grows w' w'') : Grows w w'' := by
  obtain ⟨pushed, hqueue, hnodup, hnew, hmarked⟩ := h
  obtain ⟨pushed', hqueue', hnodup', hnew', hmarked'⟩ := h'
  have hunmarked : ∀ v ∈ pushed', w.marked v = false ∧ v ∉ pushed := by
    intro v hv
    have hnot : ¬ (w.marked v = true ∨ v ∈ pushed) := by
      rw [← hmarked, hnew' v hv]
      exact Bool.false_ne_true
    exact ⟨Bool.eq_false_iff.mpr fun h => hnot (.inl h), fun h => hnot (.inr h)⟩
  refine ⟨pushed ++ pushed', ?_, ?_, ?_, fun v => ?_⟩
  · rw [hqueue', hqueue, List.append_assoc]
  · exact List.nodup_append.mpr ⟨hnodup, hnodup', fun v hv u hu heq =>
      (hunmarked u hu).2 (heq ▸ hv)⟩
  · intro v hv
    rcases List.mem_append.mp hv with hv | hv
    · exact hnew v hv
    · exact (hunmarked v hv).1
  · rw [hmarked', hmarked, List.mem_append, or_assoc]

end Grows

/-- What was taken from the queue and what is on it, each vertex once. -/
structure Once (taken : List V) (w : Work V) : Prop where
  nodup : (taken ++ w.queue).Nodup
  marked : ∀ v ∈ taken ++ w.queue, w.marked v = true

theorem Once.start : Once ([] : List V) ⟨fun _ => false, []⟩ :=
  ⟨List.nodup_nil, fun _ hv => absurd hv List.not_mem_nil⟩

/-- The vertex at the front is taken. -/
theorem Once.take {taken : List V} {marked : V → Bool} {v : V} {queue : List V}
    (h : Once taken ⟨marked, v :: queue⟩) : Once (taken ++ [v]) ⟨marked, queue⟩ := by
  have hsame : taken ++ [v] ++ queue = taken ++ v :: queue := by
    rw [List.append_assoc, List.singleton_append]
  constructor
  · show (taken ++ [v] ++ queue).Nodup
    rw [hsame]
    exact h.nodup
  · intro u (hu : u ∈ taken ++ [v] ++ queue)
    rw [hsame] at hu
    exact h.marked u hu

/-- What was marked before is not queued again. -/
theorem Once.grow {taken : List V} {w w' : Work V} (h : Once taken w) (hgrows : Grows w w') :
    Once taken w' := by
  obtain ⟨pushed, hqueue, hnodup, hnew, hmarked⟩ := hgrows
  have hsame : taken ++ w'.queue = taken ++ w.queue ++ pushed := by
    rw [hqueue, List.append_assoc]
  constructor
  · rw [hsame]
    refine List.nodup_append.mpr ⟨h.nodup, hnodup, fun u hu u' hu' heq => ?_⟩
    have hold := h.marked u hu
    have hfresh := hnew u' hu'
    rw [← heq] at hfresh
    exact Bool.false_ne_true (hfresh.symm.trans hold)
  · intro u hu
    rw [hsame] at hu
    refine (hmarked u).mpr ?_
    rcases List.mem_append.mp hu with hu | hu
    · exact .inl (h.marked u hu)
    · exact .inr hu

end Worklist
